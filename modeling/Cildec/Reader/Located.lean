import Cildec.Lib.Exits
import Cildec.Reader

/-!
# Errors that point into the input

`Error.Located lo hi` says that an error names an offset between `lo` and `hi`. A reader over
`data` from the absolute offset `base` that has passed `n` bytes stands in `Past data base n`;
its operations fail with errors that are located in the data, and pass the bytes they read.
`PointsInto` says of a parse that no failure of it names an offset elsewhere.
-/

namespace Cildec

open Wire

/-- The error names an offset, and it lies between `lo` and `hi`. -/
def Error.Located (lo hi : Nat) (e : Error) : Prop := ∃ o, e.offset = some o ∧ lo ≤ o ∧ o ≤ hi

theorem Error.located_new {lo hi o : Nat} {kind : ErrorKind} {context : String} (hlo : lo ≤ o)
    (hhi : o ≤ hi) : (Error.new kind o context).Located lo hi := ⟨o, rfl, hlo, hhi⟩

theorem Error.Located.mono {lo lo' hi hi' : Nat} {e : Error} (h : e.Located lo hi)
    (hlo : lo' ≤ lo) (hhi : hi ≤ hi') : e.Located lo' hi' := by
  obtain ⟨o, ho, hle, hge⟩ := h
  exact ⟨o, ho, hlo.trans hle, hge.trans hhi⟩

/-- The offset that a failure names. -/
def errorOffset : Result α → Option Nat
  | .ok _ => none
  | .error e => e.offset

/-- A failure that names an offset names one between `lo` and `hi`. -/
def PointsInto (lo hi : Nat) (x : Result α) : Prop :=
  ∀ o, errorOffset x = some o → lo ≤ o ∧ o ≤ hi

theorem pointsInto_ok (lo hi : Nat) (a : α) : PointsInto lo hi (.ok a : Result α) := by
  intro o ho
  cases ho

theorem pointsInto_of_located {lo hi : Nat} {x : Result α}
    (h : ∀ e, x = .error e → e.Located lo hi) : PointsInto lo hi x := by
  intro o ho
  cases x with
  | ok a => cases ho
  | error e =>
      obtain ⟨o', ho', hlo, hhi⟩ := h e rfl
      rw [errorOffset, ho'] at ho
      cases ho
      exact ⟨hlo, hhi⟩

/-- A failure at a given offset. -/
theorem pointsInto_new_iff {lo hi o : Nat} {kind : ErrorKind} {context : String} :
    PointsInto lo hi (.error (Error.new kind o context) : Result α) ↔ lo ≤ o ∧ o ≤ hi := by
  constructor
  · intro h
    exact h o rfl
  · intro h o' ho
    cases ho
    exact h

theorem pointsInto_map_iff {lo hi : Nat} {x : Result α} {f : α → β} :
    PointsInto lo hi (x.map f) ↔ PointsInto lo hi x := by
  cases x with
  | ok a => exact iff_of_true (pointsInto_ok lo hi _) (pointsInto_ok lo hi a)
  | error e => exact Iff.rfl

namespace Reader

/-- The reader stands over `data` from `base` and has passed `n` bytes at least. -/
structure Past (data : List UInt8) (base n : Nat) (r : Reader) : Prop where
  data_eq : r.data = data
  base_eq : r.base = base
  le_pos : n ≤ r.pos

variable {data : List UInt8} {base m n : Nat}

theorem Past.new (data : List UInt8) (base : Nat) (context : String) :
    Past data base 0 (new data base context) := ⟨rfl, rfl, Nat.zero_le _⟩

theorem Past.mono {r : Reader} (h : Past data base n r) (hmn : m ≤ n) : Past data base m r :=
  ⟨h.data_eq, h.base_eq, hmn.trans h.le_pos⟩

theorem Past.le_length {r : Reader} (h : Past data base n r) : n ≤ data.length := by
  rw [← h.data_eq]
  exact h.le_pos.trans r.pos_le

/-- Where the cursor stands is in the data. -/
theorem Past.absolute {r : Reader} (h : Past data base n r)
    (hmax : base + data.length ≤ usizeMax) :
    base ≤ r.absolute ∧ r.absolute ≤ base + data.length := by
  have hpos := r.pos_le
  rw [h.data_eq] at hpos
  rw [Reader.absolute, satAdd, h.base_eq]
  omega

theorem Past.located {r : Reader} (h : Past data base n r)
    (hmax : base + data.length ≤ usizeMax) (kind : ErrorKind) (context : String) :
    (Error.new kind r.absolute context).Located base (base + data.length) :=
  Error.located_new (h.absolute hmax).1 (h.absolute hmax).2

/-- A read that fails in the data passes the bytes it reads. -/
theorem exits_of_reads {p : Read α} {R : List UInt8 → α → Prop}
    (hfails : FailsIn base (base + data.length) p) (hreads : Reads p R)
    (hmax : base + data.length ≤ usizeMax) :
    Exits (Past data base n) (Error.Located base (base + data.length))
      (fun a r => ∃ bs, R bs a ∧ Past data base (n + bs.length) r) p where
  ok r a r' hr hrun := by
    obtain ⟨bs, hrest, rfl, hR⟩ := hreads r a r' hrun
    have hpos : (r.advance bs.length).pos = r.pos + bs.length := advance_pos_of_rest hrest
    exact ⟨bs, hR, hr.data_eq, hr.base_eq, hpos ▸ Nat.add_le_add_right hr.le_pos _⟩
  error r e r' hr hrun :=
    hfails r e r' hr.base_eq (by rw [hr.data_eq]) hmax hrun

/-- A read that takes `k` bytes at least. -/
theorem exits_of_consumes {p : Read α} {k : Nat} (hfails : FailsIn base (base + data.length) p)
    (hreads : Consumes k p) (hmax : base + data.length ≤ usizeMax) :
    Exits (Past data base n) (Error.Located base (base + data.length))
      (fun _ => Past data base (n + k)) p :=
  (exits_of_reads hfails hreads hmax).mono (fun _ hr => hr) fun _ _ h => by
    obtain ⟨bs, hlen, hr⟩ := h
    exact hr.mono (Nat.add_le_add_left hlen n)

theorem exits_take (hmax : base + data.length ≤ usizeMax) (k : Nat) :
    Exits (Past data base n) (Error.Located base (base + data.length))
      (fun bs r => bs.length = k ∧ Past data base (n + k) r) (take k) :=
  (exits_of_reads (failsIn_take k) (reads_take k) hmax).mono (fun _ hr => hr) fun _ _ h => by
    obtain ⟨_, ⟨rfl, hlen⟩, hr⟩ := h
    exact ⟨hlen, hlen ▸ hr⟩

theorem exits_u8 (hmax : base + data.length ≤ usizeMax) :
    Exits (Past data base n) (Error.Located base (base + data.length))
      (fun _ => Past data base (n + 1)) u8 :=
  exits_of_consumes failsIn_u8 (reads_u8.consumes fun bs b h => by rw [h, List.length_singleton])
    hmax

theorem exits_u16 (hmax : base + data.length ≤ usizeMax) :
    Exits (Past data base n) (Error.Located base (base + data.length))
      (fun _ => Past data base (n + 2)) u16 :=
  exits_of_consumes failsIn_u16 (reads_u16.consumes fun bs v h => by rw [h, leBytes_length]) hmax

theorem exits_u32 (hmax : base + data.length ≤ usizeMax) :
    Exits (Past data base n) (Error.Located base (base + data.length))
      (fun _ => Past data base (n + 4)) u32 :=
  exits_of_consumes failsIn_u32 (reads_u32.consumes fun bs v h => by rw [h, leBytes_length]) hmax

theorem exits_u64 (hmax : base + data.length ≤ usizeMax) :
    Exits (Past data base n) (Error.Located base (base + data.length))
      (fun _ => Past data base (n + 8)) u64 :=
  exits_of_consumes failsIn_u64 (reads_u64.consumes fun bs v h => by rw [h, leBytes_length]) hmax

theorem exits_skip (hmax : base + data.length ≤ usizeMax) (k : Nat) :
    Exits (Past data base n) (Error.Located base (base + data.length))
      (fun _ => Past data base (n + k)) (skip k) :=
  exits_of_consumes (failsIn_skip k) ((reads_skip k).consumes fun _ _ h => h.ge) hmax

theorem exits_seek (hmax : base + data.length ≤ usizeMax) (k : Nat) :
    Exits (Past data base n) (Error.Located base (base + data.length))
      (fun _ => Past data base k) (seek k) where
  ok r u r' hr hrun := by
    obtain ⟨hle, rfl⟩ := seek_ok_iff.mp hrun
    exact ⟨hr.data_eq, hr.base_eq, (moveTo_pos hle).ge⟩
  error r e r' hr hrun := by
    by_cases hle : k ≤ r.data.length
    · have hok : (seek k).run r = .ok () (r.moveTo k) := seek_ok_iff.mpr ⟨hle, rfl⟩
      rw [hok] at hrun
      cases hrun
    · simp only [seek, EStateM.run_bind, EStateM.run_get, hle, not_false_eq_true, dif_neg] at hrun
      cases hrun
      exact hr.located hmax _ _

theorem exits_peekU8 (hmax : base + data.length ≤ usizeMax) :
    Exits (Past data base n) (Error.Located base (base + data.length))
      (fun _ => Past data base n) peekU8 where
  ok r b r' hr hrun := by
    cases hrest : r.rest with
    | nil =>
        have hge : ¬ r.pos < r.data.length := Nat.not_lt.mpr (List.drop_eq_nil_iff.mp hrest)
        simp [peekU8, hge] at hrun
    | cons c tl =>
        rw [peekU8_run_cons hrest] at hrun
        cases hrun
        exact hr
  error r e r' hr hrun := by
    cases hrest : r.rest with
    | nil =>
        have hge : ¬ r.pos < r.data.length := Nat.not_lt.mpr (List.drop_eq_nil_iff.mp hrest)
        simp only [peekU8, EStateM.run_bind, EStateM.run_get, hge, not_false_eq_true,
          dif_neg] at hrun
        cases hrun
        exact hr.located hmax _ _
    | cons c tl =>
        rw [peekU8_run_cons hrest] at hrun
        cases hrun

end Reader

end Cildec
