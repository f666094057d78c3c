import Cildec.Error
import Cildec.Lib.LittleEndian
import Cildec.Lib.Run
import Cildec.Lib.Slice

/-!
# The bounds-checked cursor (`src/reader.rs`)

A `Reader` cannot stand past the end of its bytes: the bound is a field, and each
operation that moves the cursor proves it again. Operations are computations
over the reader, so that the state a failed one leaves behind is visible.
-/

namespace Cildec

/-- A cursor over a byte slice with the absolute offset of the slice. -/
structure Reader where
  data : List UInt8
  pos : Nat
  base : Nat
  context : String
  pos_le : pos ≤ data.length

/-- A fallible operation on `&mut Reader`. -/
abbrev Read := EStateM Error Reader

namespace Reader

def new (data : List UInt8) (base : Nat) (context : String) : Reader :=
  ⟨data, 0, base, context, Nat.zero_le _⟩

def position (r : Reader) : Nat := r.pos

/-- Absolute offset of the cursor in the original input. -/
def absolute (r : Reader) : Nat := satAdd r.base r.pos

def remaining (r : Reader) : Nat := r.data.length - r.pos

def isEmpty (r : Reader) : Bool := decide (r.data.length ≤ r.pos)

/-- The remaining bytes, without consuming them. -/
def rest (r : Reader) : List UInt8 := r.data.drop r.pos

def err (r : Reader) (kind : ErrorKind) : Error := Error.new kind r.absolute r.context

def seek (pos : Nat) : Read Unit := do
  let r ← get
  if h : pos ≤ r.data.length then
    set { r with pos := pos, pos_le := h }
  else
    throw (r.err .outOfRange)

def skip (n : Nat) : Read Unit := do
  let r ← get
  seek (r.pos + n)

/-- Aligns the cursor up to a multiple of `align`, a power of two, relative to
`origin`. -/
def alignTo (origin align : Nat) : Read Unit := do
  let r ← get
  let rel := r.pos - origin
  let pad := wrappingNeg rel &&& (align - 1)
  skip pad

def take (n : Nat) : Read (List UInt8) := do
  let r ← get
  if h : r.pos + n ≤ r.data.length then
    set { r with pos := r.pos + n, pos_le := h }
    return r.rest.take n
  else
    throw (r.err .truncated)

def u8 : Read UInt8 := do
  let r ← get
  if h : r.pos < r.data.length then
    set { r with pos := r.pos + 1, pos_le := h }
    return r.data[r.pos]
  else
    throw (r.err .truncated)

def peekU8 : Read UInt8 := do
  let r ← get
  if h : r.pos < r.data.length then
    return r.data[r.pos]
  else
    throw (r.err .truncated)

def i8 : Read Int8 := do
  let b ← u8
  return b.toInt8

def u16 : Read UInt16 := do
  let b ← take 2
  return UInt16.ofNat (Wire.leNat b)

def u32 : Read UInt32 := do
  let b ← take 4
  return UInt32.ofNat (Wire.leNat b)

def i32 : Read Int32 := do
  let v ← u32
  return v.toInt32

def u64 : Read UInt64 := do
  let b ← take 8
  return UInt64.ofNat (Wire.leNat b)

def i64 : Read Int64 := do
  let v ← u64
  return v.toInt64

/-! ## The reader as a cursor -/

/-- The reader `n` bytes further on, or at the end. -/
def advance (n : Nat) (r : Reader) : Reader :=
  { r with pos := min (r.pos + n) r.data.length, pos_le := Nat.min_le_right _ _ }

@[simp] theorem advance_data (n : Nat) (r : Reader) : (r.advance n).data = r.data := rfl
@[simp] theorem advance_base (n : Nat) (r : Reader) : (r.advance n).base = r.base := rfl
@[simp] theorem advance_context (n : Nat) (r : Reader) :
    (r.advance n).context = r.context := rfl

theorem ext_pos {r s : Reader} (hdata : r.data = s.data) (hpos : r.pos = s.pos)
    (hbase : r.base = s.base) (hcontext : r.context = s.context) : r = s := by
  cases r
  cases s
  cases hdata
  cases hpos
  cases hbase
  cases hcontext
  rfl

instance : Wire.Cursor Reader where
  rest := rest
  advance := advance
  rest_advance n r := by
    have hr := r.pos_le
    show r.data.drop (min (r.pos + n) r.data.length) = (r.data.drop r.pos).drop n
    rw [List.drop_drop]
    rcases Nat.le_total (r.pos + n) r.data.length with h | h
    · rw [Nat.min_eq_left h]
    · rw [Nat.min_eq_right h, List.drop_length, List.drop_eq_nil_of_le h]
  advance_zero r := ext_pos rfl (Nat.min_eq_left r.pos_le) rfl rfl
  advance_advance m n r := by
    refine ext_pos rfl ?_ rfl rfl
    show min (min (r.pos + m) r.data.length + n) r.data.length = _
    simp only [advance]
    omega

@[simp] theorem cursor_rest (r : Reader) : Wire.Cursor.rest r = r.rest := rfl
@[simp] theorem cursor_advance (n : Nat) (r : Reader) :
    Wire.Cursor.advance n r = r.advance n := rfl

@[simp] theorem rest_new (data : List UInt8) (base : Nat) (context : String) :
    (new data base context).rest = data := List.drop_zero

theorem rest_length (r : Reader) : r.rest.length = r.remaining := List.length_drop

theorem remaining_of_rest {r : Reader} {bs tl : List UInt8} (h : r.rest = bs ++ tl) :
    r.remaining = bs.length + tl.length := by
  rw [← rest_length, h, List.length_append]

theorem remaining_advance (n : Nat) (r : Reader) :
    (r.advance n).remaining = r.remaining - n := by
  have hrest : (r.advance n).rest = r.rest.drop n := Wire.Cursor.rest_advance n r
  rw [← rest_length, hrest, List.length_drop, rest_length]

/-- Inside the bytes, `advance` moves the cursor by exactly `n`. -/
theorem advance_pos {n : Nat} {r : Reader} (h : n ≤ r.remaining) :
    (r.advance n).pos = r.pos + n := by
  have hr := r.pos_le
  have h' : n ≤ r.data.length - r.pos := h
  exact Nat.min_eq_left (by omega)

theorem advance_pos_of_rest {r : Reader} {bs tl : List UInt8} (h : r.rest = bs ++ tl) :
    (r.advance bs.length).pos = r.pos + bs.length :=
  advance_pos (by rw [remaining_of_rest h]; omega)

/-- After `bs`, a reader that stood at `n` stands `bs.length` further on. -/
theorem pos_advance {n : Nat} {bs tl : List UInt8} (r : Reader) (hpos : r.pos = n)
    (hrest : Wire.Cursor.rest r = bs ++ tl) :
    (Wire.Cursor.advance bs.length r).pos = n + bs.length := by
  rw [cursor_advance, advance_pos_of_rest hrest, hpos]

/-! ## What each operation does -/

open Wire

/-- Sequencing of decoders that know where the reader stands. -/
theorem decodes_bind_pos {n m : Nat} {p : Read α} {f : α → Read β} {bs cs tl : List UInt8}
    {a : α} {b : β} (hp : Decodes (fun r => r.pos = n) p bs a (cs ++ tl))
    (hm : n + bs.length = m) (hf : Decodes (fun r => r.pos = m) (f a) cs b tl) :
    Decodes (fun r => r.pos = n) (p >>= f) (bs ++ cs) b tl :=
  Decodes.bind hp (fun r hpos hrest => (pos_advance r hpos hrest).trans hm) hf

theorem take_run {n : Nat} {r : Reader} (h : n ≤ r.remaining) :
    (take n).run r = .ok (r.rest.take n) (r.advance n) := by
  have hr := r.pos_le
  have hle : r.pos + n ≤ r.data.length := by
    have h' : n ≤ r.data.length - r.pos := h
    omega
  have hnext : ({ r with pos := r.pos + n, pos_le := hle } : Reader) = r.advance n :=
    ext_pos rfl (Nat.min_eq_left hle).symm rfl rfl
  simp only [take, EStateM.run_bind, EStateM.run_get, hle, dif_pos, EStateM.run_set,
    EStateM.run_pure, hnext]

theorem take_run_error {n : Nat} {r : Reader} (h : r.remaining < n) :
    (take n).run r = .error (r.err .truncated) r := by
  have hgt : ¬ r.pos + n ≤ r.data.length := by
    have h' : r.data.length - r.pos < n := h
    have hr := r.pos_le
    omega
  simp [take, hgt]

theorem decodes_take (P : Reader → Prop) (bs tl : List UInt8) :
    Decodes P (take bs.length) bs bs tl := by
  intro r _ hrest
  rw [take_run (by rw [remaining_of_rest hrest]; omega)]
  rw [show r.rest = bs ++ tl from hrest, List.take_left]
  rfl

theorem reads_take (n : Nat) : Reads (take n) (fun bs a => a = bs ∧ bs.length = n) := by
  intro r a r' hrun
  by_cases h : n ≤ r.remaining
  · rw [take_run h] at hrun
    cases hrun
    have hlen : (r.rest.take n).length = n := by
      rw [List.length_take, rest_length]
      omega
    refine ⟨r.rest.take n, ?_, by simp [hlen], rfl, hlen⟩
    rw [← cursor_advance, Wire.Cursor.rest_advance, cursor_rest, List.take_append_drop]
  · rw [take_run_error (by omega)] at hrun
    cases hrun

theorem totalOn_take (n : Nat) : TotalOn n (take n) := by
  intro r hlen
  exact ⟨_, take_run (by rwa [cursor_rest, rest_length] at hlen)⟩

theorem skip_run {n : Nat} {r : Reader} (h : n ≤ r.remaining) :
    (skip n).run r = .ok () (r.advance n) := by
  have hr := r.pos_le
  have hle : r.pos + n ≤ r.data.length := by
    have h' : n ≤ r.data.length - r.pos := h
    omega
  have hnext : ({ r with pos := r.pos + n, pos_le := hle } : Reader) = r.advance n :=
    ext_pos rfl (Nat.min_eq_left hle).symm rfl rfl
  simp only [skip, seek, EStateM.run_bind, EStateM.run_get, hle, dif_pos, EStateM.run_set, hnext]

theorem skip_run_error {n : Nat} {r : Reader} (h : r.remaining < n) :
    (skip n).run r = .error (r.err .outOfRange) r := by
  have hgt : ¬ r.pos + n ≤ r.data.length := by
    have h' : r.data.length - r.pos < n := h
    have hr := r.pos_le
    omega
  simp [skip, seek, hgt]

theorem decodes_skip (P : Reader → Prop) (bs tl : List UInt8) :
    Decodes P (skip bs.length) bs () tl := by
  intro r _ hrest
  exact skip_run (by rw [remaining_of_rest hrest]; omega)

theorem reads_skip (n : Nat) : Reads (skip n) (fun bs _ => bs.length = n) := by
  intro r u r' hrun
  by_cases h : n ≤ r.remaining
  · rw [skip_run h] at hrun
    cases hrun
    have hlen : (r.rest.take n).length = n := by
      rw [List.length_take, rest_length]
      omega
    refine ⟨r.rest.take n, ?_, by simp [hlen], hlen⟩
    rw [← cursor_advance, Wire.Cursor.rest_advance, cursor_rest, List.take_append_drop]
  · rw [skip_run_error (by omega)] at hrun
    cases hrun

/-- A reader with an unread byte `b` stands before the end, on `b`. -/
theorem pos_lt_of_rest_cons {r : Reader} {b : UInt8} {tl : List UInt8}
    (h : r.rest = b :: tl) : ∃ hlt : r.pos < r.data.length, r.data[r.pos] = b := by
  have hlt : r.pos < r.data.length := by
    have hlen := congrArg List.length h
    rw [rest_length, List.length_cons] at hlen
    have hrem : r.remaining = r.data.length - r.pos := rfl
    omega
  have hdrop := List.drop_eq_getElem_cons hlt
  rw [show r.data.drop r.pos = b :: tl from h] at hdrop
  exact ⟨hlt, (List.cons.inj hdrop).1.symm⟩

theorem u8_run_cons {r : Reader} {b : UInt8} {tl : List UInt8} (h : r.rest = b :: tl) :
    u8.run r = .ok b (r.advance 1) := by
  obtain ⟨hlt, hget⟩ := pos_lt_of_rest_cons h
  have hnext : ({ r with pos := r.pos + 1, pos_le := hlt } : Reader) = r.advance 1 :=
    ext_pos rfl (Nat.min_eq_left hlt).symm rfl rfl
  simp only [u8, EStateM.run_bind, EStateM.run_get, hlt, dif_pos, EStateM.run_set,
    EStateM.run_pure, hnext, hget]

theorem u8_run_nil {r : Reader} (h : r.rest = []) :
    u8.run r = .error (r.err .truncated) r := by
  have hge : ¬ r.pos < r.data.length := Nat.not_lt.mpr (List.drop_eq_nil_iff.mp h)
  simp [u8, hge]

theorem peekU8_run_cons {r : Reader} {b : UInt8} {tl : List UInt8} (h : r.rest = b :: tl) :
    peekU8.run r = .ok b r := by
  obtain ⟨hlt, hget⟩ := pos_lt_of_rest_cons h
  simp [peekU8, hlt, hget]

theorem decodes_u8 (P : Reader → Prop) (b : UInt8) (tl : List UInt8) :
    Decodes P u8 [b] b tl := by
  intro r _ hrest
  exact u8_run_cons hrest

theorem reads_u8 : Reads u8 (fun bs b => bs = [b]) := by
  intro r b r' hrun
  cases hrest : r.rest with
  | nil =>
      rw [u8_run_nil hrest] at hrun
      cases hrun
  | cons c tl =>
      rw [u8_run_cons hrest] at hrun
      cases hrun
      refine ⟨[b], ?_, rfl, rfl⟩
      rw [← cursor_advance, Wire.Cursor.rest_advance, cursor_rest, hrest]
      rfl

theorem totalOn_u8 : TotalOn 1 u8 := by
  intro r hlen
  cases hrest : r.rest with
  | nil =>
      rw [cursor_rest, hrest] at hlen
      exact absurd hlen (by decide)
  | cons b tl => exact ⟨b, u8_run_cons hrest⟩

theorem totalOn_u16 : TotalOn 2 u16 := (totalOn_take 2).map _

theorem totalOn_u32 : TotalOn 4 u32 := (totalOn_take 4).map _

theorem decodes_i8 (P : Reader → Prop) (v : Int8) (tl : List UInt8) :
    Decodes P i8 [v.toUInt8] v tl := by
  have h := (decodes_u8 P v.toUInt8 tl).map UInt8.toInt8
  rwa [Int8.toInt8_toUInt8] at h

theorem reads_i8 : Reads i8 (fun bs v => bs = [v.toUInt8]) :=
  (reads_u8.map UInt8.toInt8).mono fun bs v h => by
    obtain ⟨b, rfl, rfl⟩ := h
    rw [UInt8.toUInt8_toInt8]

theorem decodes_u16 (P : Reader → Prop) (v : UInt16) (tl : List UInt8) :
    Decodes P u16 (leBytes 2 v.toNat) v tl := by
  have h := (decodes_take P (leBytes 2 v.toNat) tl).map fun b => UInt16.ofNat (leNat b)
  rwa [ofNat_leNat_leBytes_u16, leBytes_length] at h

theorem reads_u16 : Reads u16 (fun bs v => bs = leBytes 2 v.toNat) :=
  ((reads_take 2).map fun b => UInt16.ofNat (leNat b)).mono fun bs v h => by
    obtain ⟨b, rfl, rfl, hlen⟩ := h
    exact (leBytes_ofNat_leNat_u16 hlen).symm

theorem decodes_u32 (P : Reader → Prop) (v : UInt32) (tl : List UInt8) :
    Decodes P u32 (leBytes 4 v.toNat) v tl := by
  have h := (decodes_take P (leBytes 4 v.toNat) tl).map fun b => UInt32.ofNat (leNat b)
  rwa [ofNat_leNat_leBytes_u32, leBytes_length] at h

theorem reads_u32 : Reads u32 (fun bs v => bs = leBytes 4 v.toNat) :=
  ((reads_take 4).map fun b => UInt32.ofNat (leNat b)).mono fun bs v h => by
    obtain ⟨b, rfl, rfl, hlen⟩ := h
    exact (leBytes_ofNat_leNat_u32 hlen).symm

theorem decodes_i32 (P : Reader → Prop) (v : Int32) (tl : List UInt8) :
    Decodes P i32 (leBytes 4 v.toUInt32.toNat) v tl := by
  have h := (decodes_u32 P v.toUInt32 tl).map UInt32.toInt32
  rwa [Int32.toInt32_toUInt32] at h

theorem reads_i32 : Reads i32 (fun bs v => bs = leBytes 4 v.toUInt32.toNat) :=
  (reads_u32.map UInt32.toInt32).mono fun bs v h => by
    obtain ⟨b, rfl, rfl⟩ := h
    rw [UInt32.toUInt32_toInt32]

theorem decodes_u64 (P : Reader → Prop) (v : UInt64) (tl : List UInt8) :
    Decodes P u64 (leBytes 8 v.toNat) v tl := by
  have h := (decodes_take P (leBytes 8 v.toNat) tl).map fun b => UInt64.ofNat (leNat b)
  rwa [ofNat_leNat_leBytes_u64, leBytes_length] at h

theorem reads_u64 : Reads u64 (fun bs v => bs = leBytes 8 v.toNat) :=
  ((reads_take 8).map fun b => UInt64.ofNat (leNat b)).mono fun bs v h => by
    obtain ⟨b, rfl, rfl, hlen⟩ := h
    exact (leBytes_ofNat_leNat_u64 hlen).symm

theorem decodes_i64 (P : Reader → Prop) (v : Int64) (tl : List UInt8) :
    Decodes P i64 (leBytes 8 v.toUInt64.toNat) v tl := by
  have h := (decodes_u64 P v.toUInt64 tl).map UInt64.toInt64
  rwa [Int64.toInt64_toUInt64] at h

theorem reads_i64 : Reads i64 (fun bs v => bs = leBytes 8 v.toUInt64.toNat) :=
  (reads_u64.map UInt64.toInt64).mono fun bs v h => by
    obtain ⟨b, rfl, rfl⟩ := h
    rw [UInt64.toUInt64_toInt64]

/-! ## Alignment -/

/-- The bytes that bring `n` up to a multiple of four. -/
def padding (n : Nat) : List UInt8 := List.replicate ((4 - n % 4) % 4) 0

theorem wrappingNeg_and_three (n : Nat) : wrappingNeg n &&& 3 = (4 - n % 4) % 4 := by
  rw [show (3 : Nat) = 2 ^ 2 - 1 from rfl, Nat.and_two_pow_sub_one_eq_mod, wrappingNeg]
  omega

theorem decodes_alignTo (n : Nat) (tl : List UInt8) :
    Decodes (fun r => r.pos = n) (alignTo 0 4) (padding n) () tl := by
  refine Decodes.get_bind fun r hpos _ => ?_
  have hpad : wrappingNeg (r.pos - 0) &&& (4 - 1) = (padding n).length := by
    rw [padding, List.length_replicate, ← wrappingNeg_and_three, ← hpos, Nat.sub_zero]
  simp only [hpad]
  exact decodes_skip _ _ tl

/-- Seeking to where the cursor stands. -/
theorem decodes_seek (n : Nat) (tl : List UInt8) :
    Decodes (fun r => r.pos = n) (seek n) [] () tl := by
  intro r hpos _
  subst hpos
  simp [seek, r.pos_le]

/-- The reader at offset `n`, or at the end. -/
def moveTo (n : Nat) (r : Reader) : Reader :=
  { r with pos := min n r.data.length, pos_le := Nat.min_le_right _ _ }

@[simp] theorem moveTo_data (n : Nat) (r : Reader) : (r.moveTo n).data = r.data := rfl

@[simp] theorem moveTo_moveTo (m n : Nat) (r : Reader) :
    (r.moveTo m).moveTo n = r.moveTo n := rfl

theorem moveTo_pos {n : Nat} {r : Reader} (h : n ≤ r.data.length) : (r.moveTo n).pos = n :=
  Nat.min_eq_left h

theorem moveTo_rest {n : Nat} {r : Reader} (h : n ≤ r.data.length) :
    (r.moveTo n).rest = r.data.drop n := by
  rw [rest, moveTo_pos h, moveTo_data]

theorem moveTo_remaining {n : Nat} {r : Reader} (h : n ≤ r.data.length) :
    (r.moveTo n).remaining = r.data.length - n := by
  rw [remaining, moveTo_pos h, moveTo_data]

theorem advance_eq_moveTo (n : Nat) (r : Reader) : r.advance n = r.moveTo (r.pos + n) := rfl

theorem moveTo_advance {m n : Nat} {r : Reader} (h : m ≤ r.data.length) :
    (r.moveTo m).advance n = r.moveTo (m + n) := by
  rw [advance_eq_moveTo, moveTo_pos h, moveTo_moveTo]

theorem seek_ok_iff {n : Nat} {r r' : Reader} {u : Unit} :
    (seek n).run r = .ok u r' ↔ n ≤ r.data.length ∧ r' = r.moveTo n := by
  by_cases h : n ≤ r.data.length
  · have hnext : ({ r with pos := n, pos_le := h } : Reader) = r.moveTo n :=
      ext_pos rfl (Nat.min_eq_left h).symm rfl rfl
    simp only [seek, EStateM.run_bind, EStateM.run_get, h, dif_pos, EStateM.run_set, hnext,
      true_and]
    constructor
    · intro hrun
      cases hrun
      rfl
    · rintro rfl
      rfl
  · constructor
    · intro hrun
      simp [seek, h] at hrun
    · rintro ⟨hle, _⟩
      exact absurd hle h

theorem take_ok_iff {n : Nat} {r r' : Reader} {bs : List UInt8} :
    (take n).run r = .ok bs r' ↔
      n ≤ r.remaining ∧ bs = r.rest.take n ∧ r' = r.advance n := by
  by_cases h : n ≤ r.remaining
  · rw [take_run h]
    constructor
    · intro hrun
      cases hrun
      exact ⟨h, rfl, rfl⟩
    · rintro ⟨_, rfl, rfl⟩
      rfl
  · rw [take_run_error (Nat.not_le.mp h)]
    constructor
    · intro hrun
      cases hrun
    · rintro ⟨hle, _⟩
      exact absurd hle h

/-! ## Reads at a known offset -/

theorem new_eq_moveTo (data : List UInt8) (base : Nat) (context : String) :
    new data base context = (new data base context).moveTo 0 :=
  ext_pos rfl (Nat.zero_min _).symm rfl rfl

theorem take_at_iff {m n : Nat} {r r' : Reader} {bs : List UInt8} (hm : m ≤ r.data.length) :
    (take n).run (r.moveTo m) = .ok bs r' ↔
      m + n ≤ r.data.length ∧ bs = (r.data.drop m).take n ∧ r' = r.moveTo (m + n) := by
  rw [take_ok_iff, moveTo_remaining hm, moveTo_rest hm, moveTo_advance hm]
  have hle : n ≤ r.data.length - m ↔ m + n ≤ r.data.length := by omega
  rw [hle]

theorem take_at {m n : Nat} {r r' : Reader} {bs : List UInt8} (hm : m ≤ r.data.length)
    (hrun : (take n).run (r.moveTo m) = .ok bs r') :
    m + n ≤ r.data.length ∧ bs = (r.data.drop m).take n ∧ r' = r.moveTo (m + n) :=
  (take_at_iff hm).mp hrun

/-- A read that takes `n` bytes and converts them. -/
theorem takeWith_at_iff {f : List UInt8 → α} {m n : Nat} {r r' : Reader} {a : α}
    (hm : m ≤ r.data.length) :
    (take n >>= fun bs => pure (f bs)).run (r.moveTo m) = .ok a r' ↔
      m + n ≤ r.data.length ∧ a = f ((r.data.drop m).take n) ∧ r' = r.moveTo (m + n) := by
  rw [run_bind_ok_iff]
  constructor
  · rintro ⟨bs, mid, htake, hpure⟩
    cases hpure
    obtain ⟨hle, rfl, rfl⟩ := take_at hm htake
    exact ⟨hle, rfl, rfl⟩
  · rintro ⟨hle, rfl, rfl⟩
    exact ⟨_, _, (take_at_iff hm).mpr ⟨hle, rfl, rfl⟩, rfl⟩

theorem u16_at_iff {m : Nat} {r r' : Reader} {v : UInt16} (hm : m ≤ r.data.length) :
    u16.run (r.moveTo m) = .ok v r' ↔ m + 2 ≤ r.data.length ∧
      v = UInt16.ofNat (leNat ((r.data.drop m).take 2)) ∧ r' = r.moveTo (m + 2) :=
  takeWith_at_iff hm

theorem u32_at_iff {m : Nat} {r r' : Reader} {v : UInt32} (hm : m ≤ r.data.length) :
    u32.run (r.moveTo m) = .ok v r' ↔ m + 4 ≤ r.data.length ∧
      v = UInt32.ofNat (leNat ((r.data.drop m).take 4)) ∧ r' = r.moveTo (m + 4) :=
  takeWith_at_iff hm

/-- The bytes of a field that lies in the data give a number of its width. -/
theorem leNat_field_lt (bs : List UInt8) (m n : Nat) :
    leNat ((bs.drop m).take n) < 256 ^ n :=
  (leNat_lt _).trans_le (Nat.pow_le_pow_right (by decide) (List.length_take_le _ _))

theorem u16_at {m : Nat} {r r' : Reader} {v : UInt16} (hm : m ≤ r.data.length)
    (hrun : u16.run (r.moveTo m) = .ok v r') :
    m + 2 ≤ r.data.length ∧ v.toNat = leNat ((r.data.drop m).take 2) ∧ r' = r.moveTo (m + 2) := by
  obtain ⟨hle, rfl, rfl⟩ := (u16_at_iff hm).mp hrun
  exact ⟨hle, UInt16.toNat_ofNat_of_lt' (leNat_field_lt _ _ _), rfl⟩

theorem u32_at {m : Nat} {r r' : Reader} {v : UInt32} (hm : m ≤ r.data.length)
    (hrun : u32.run (r.moveTo m) = .ok v r') :
    m + 4 ≤ r.data.length ∧ v.toNat = leNat ((r.data.drop m).take 4) ∧ r' = r.moveTo (m + 4) := by
  obtain ⟨hle, rfl, rfl⟩ := (u32_at_iff hm).mp hrun
  exact ⟨hle, UInt32.toNat_ofNat_of_lt' (leNat_field_lt _ _ _), rfl⟩

theorem isEmpty_of_rest {r : Reader} {bs : List UInt8} (hrest : r.rest = bs) (hne : bs ≠ []) :
    r.isEmpty = false := by
  have hlen := r.rest_length
  have hpos : 0 < bs.length := List.length_pos_iff.mpr hne
  have hremaining : r.remaining = r.data.length - r.pos := rfl
  rw [hrest] at hlen
  simp only [isEmpty, decide_eq_false_iff_not]
  omega

/-! ## The bytes stay the same -/

/-- A successful run moves the cursor only. -/
def KeepsData (p : Read α) : Prop := ∀ r a r', p.run r = .ok a r' → r'.data = r.data

theorem KeepsData.of_reads {p : Read α} {R : List UInt8 → α → Prop} (h : Reads p R) :
    KeepsData p := by
  intro r a r' hrun
  obtain ⟨bs, _, rfl, _⟩ := h r a r' hrun
  rfl

theorem KeepsData.pure (a : α) : KeepsData (Pure.pure a) := KeepsData.of_reads (Reads.pure a)

theorem KeepsData.bind {p : Read α} {f : α → Read β} (hp : KeepsData p)
    (hf : ∀ a, KeepsData (f a)) : KeepsData (p >>= f) := by
  intro r b r' hrun
  obtain ⟨a, mid, ha, hb⟩ := run_bind_ok_iff.mp hrun
  exact (hf a mid b r' hb).trans (hp r a mid ha)

theorem KeepsData.get_bind {f : Reader → Read β} (hf : ∀ r, KeepsData (f r)) :
    KeepsData (get >>= f) := fun r b r' hrun => hf r r b r' hrun

theorem KeepsData.ofExcept (x : Except Error α) : KeepsData (Wire.ofExcept x) :=
  KeepsData.of_reads (Reads.ofExcept x)

theorem KeepsData.repeatM {p : Read α} (hp : KeepsData p) (n : Nat) :
    KeepsData (Wire.repeatM p n) := by
  induction n with
  | zero => exact KeepsData.pure []
  | succ n ih => exact hp.bind fun a => ih.bind fun as => KeepsData.pure (a :: as)

theorem keepsData_seek (n : Nat) : KeepsData (seek n) := by
  intro r u r' hrun
  obtain ⟨_, rfl⟩ := seek_ok_iff.mp hrun
  rfl

theorem keepsData_u16 : KeepsData u16 := KeepsData.of_reads reads_u16

theorem keepsData_u32 : KeepsData u32 := KeepsData.of_reads reads_u32

theorem keepsData_u64 : KeepsData u64 := KeepsData.of_reads reads_u64

/-! ## Where a failure stands -/

/-- On a reader over the bytes from `lo` to `hi`, every failure names an offset in them. -/
def FailsIn (lo hi : Nat) (p : Read α) : Prop :=
  ∀ r e r', r.base = lo → lo + r.data.length = hi → hi ≤ usizeMax → p.run r = .error e r' →
    ∃ o, e.offset = some o ∧ lo ≤ o ∧ o ≤ hi

section FailsIn

variable {lo hi : Nat}

theorem FailsIn.pure (a : α) : FailsIn lo hi (Pure.pure a) := by
  intro r e r' _ _ _ h
  cases h

theorem FailsIn.throw {o : Nat} (kind : ErrorKind) (context : String) (hlo : lo ≤ o)
    (hhi : o ≤ hi) : FailsIn lo hi (throw (Error.new kind o context) : Read α) := by
  intro r e r' _ _ _ h
  cases h
  exact ⟨o, rfl, hlo, hhi⟩

theorem FailsIn.throw_err (kind : ErrorKind) {r : Reader} (hbase : r.base = lo)
    (hlen : lo + r.data.length = hi) (hmax : hi ≤ usizeMax) :
    ∃ o, (r.err kind).offset = some o ∧ lo ≤ o ∧ o ≤ hi := by
  have hpos := r.pos_le
  refine ⟨r.absolute, rfl, ?_, ?_⟩ <;> simp only [absolute, satAdd, hbase] <;> omega

/-- A sequence fails inside when its parts do: the first part leaves the bytes alone. -/
theorem FailsIn.bind {p : Read α} {f : α → Read β} {R : List UInt8 → α → Prop}
    (hp : FailsIn lo hi p) (hreads : Reads p R) (hf : ∀ a, FailsIn lo hi (f a)) :
    FailsIn lo hi (p >>= f) := by
  intro r e r' hbase hlen hmax h
  rw [EStateM.run_bind] at h
  cases hrun : p.run r with
  | ok a mid =>
      rw [hrun] at h
      obtain ⟨bs, _, rfl, _⟩ := hreads _ _ _ hrun
      exact hf a (Wire.advance bs.length r) e r' hbase hlen hmax h
  | error e' mid =>
      rw [hrun] at h
      cases h
      exact hp _ _ _ hbase hlen hmax hrun

theorem FailsIn.get_bind {f : Reader → Read α} (hf : ∀ r, FailsIn lo hi (f r)) :
    FailsIn lo hi (get >>= f) := fun r e r' hbase hlen hmax h =>
  hf r r e r' hbase hlen hmax h

theorem FailsIn.map {p : Read α} (hp : FailsIn lo hi p) (g : α → β) :
    FailsIn lo hi (p >>= fun a => Pure.pure (g a)) := by
  intro r e r' hbase hlen hmax h
  rw [EStateM.run_bind] at h
  cases hrun : p.run r with
  | ok a mid =>
      rw [hrun] at h
      cases h
  | error e' mid =>
      rw [hrun] at h
      cases h
      exact hp _ _ _ hbase hlen hmax hrun

theorem FailsIn.repeatM {p : Read α} {R : List UInt8 → α → Prop} (hp : FailsIn lo hi p)
    (hreads : Reads p R) : ∀ n, FailsIn lo hi (repeatM p n)
  | 0 => FailsIn.pure []
  | n + 1 => hp.bind hreads fun a => (FailsIn.repeatM hp hreads n).map (a :: ·)

theorem failsIn_take (n : Nat) : FailsIn lo hi (take n) := by
  intro r e r' hbase hlen hmax h
  by_cases hn : n ≤ r.remaining
  · rw [take_run hn] at h
    cases h
  · rw [take_run_error (by omega)] at h
    cases h
    exact FailsIn.throw_err _ hbase hlen hmax

theorem failsIn_skip (n : Nat) : FailsIn lo hi (skip n) := by
  intro r e r' hbase hlen hmax h
  by_cases hn : n ≤ r.remaining
  · rw [skip_run hn] at h
    cases h
  · rw [skip_run_error (by omega)] at h
    cases h
    exact FailsIn.throw_err _ hbase hlen hmax

theorem failsIn_u8 : FailsIn lo hi u8 := by
  intro r e r' hbase hlen hmax h
  cases hrest : r.rest with
  | nil =>
      rw [u8_run_nil hrest] at h
      cases h
      exact FailsIn.throw_err _ hbase hlen hmax
  | cons b tl =>
      rw [u8_run_cons hrest] at h
      cases h

theorem failsIn_i8 : FailsIn lo hi i8 := failsIn_u8.map UInt8.toInt8

theorem failsIn_u16 : FailsIn lo hi u16 :=
  (failsIn_take 2).map fun b => UInt16.ofNat (leNat b)

theorem failsIn_u32 : FailsIn lo hi u32 :=
  (failsIn_take 4).map fun b => UInt32.ofNat (leNat b)

theorem failsIn_i32 : FailsIn lo hi i32 := failsIn_u32.map UInt32.toInt32

theorem failsIn_u64 : FailsIn lo hi u64 :=
  (failsIn_take 8).map fun b => UInt64.ofNat (leNat b)

theorem failsIn_i64 : FailsIn lo hi i64 := failsIn_u64.map UInt64.toInt64

end FailsIn

end Reader

open Wire

/-- Reads a 2- or 4-byte little-endian value out of `bytes` at `offset`, or `none`
when the range is not fully inside `bytes`. -/
def readUintAt (bytes : List UInt8) (offset width : Nat) : Option Nat :=
  match width with
  | 2 => (slice? bytes offset (offset + 2)).map leNat
  | 4 => (slice? bytes offset (offset + 4)).map leNat
  | _ => none

theorem readUintAt_append {width v : Nat} (hwidth : width = 2 ∨ width = 4)
    (hv : v < 256 ^ width) (pre post : List UInt8) :
    readUintAt (pre ++ (leBytes width v ++ post)) pre.length width = some v := by
  have hslice := slice?_append pre (leBytes width v) post
  rw [leBytes_length] at hslice
  rcases hwidth with rfl | rfl <;>
    simp only [readUintAt, hslice, Option.map_some, leNat_leBytes hv]

/-- Which reads succeed. -/
theorem readUintAt_isSome_iff {bytes : List UInt8} {offset width : Nat}
    (hwidth : width = 2 ∨ width = 4) :
    (readUintAt bytes offset width).isSome ↔ offset + width ≤ bytes.length := by
  rcases hwidth with rfl | rfl <;>
    simp only [readUintAt, Option.isSome_map, slice?_isSome_iff] <;> omega

/-- A value fits the width it is read with. -/
theorem readUintAt_lt_pow {bytes : List UInt8} {offset width v : Nat}
    (h : readUintAt bytes offset width = some v) :
    (width = 2 ∨ width = 4) ∧ v < 256 ^ width := by
  unfold readUintAt at h
  split at h
  · obtain ⟨bs, hbs, rfl⟩ := Option.map_eq_some_iff.mp h
    have hlt := leNat_lt bs
    rw [length_of_slice? hbs, Nat.add_sub_cancel_left] at hlt
    exact ⟨.inl rfl, hlt⟩
  · obtain ⟨bs, hbs, rfl⟩ := Option.map_eq_some_iff.mp h
    have hlt := leNat_lt bs
    rw [length_of_slice? hbs, Nat.add_sub_cancel_left] at hlt
    exact ⟨.inr rfl, hlt⟩
  · cases h

/-- A column value is a `u32`. -/
theorem readUintAt_lt {bytes : List UInt8} {offset width v : Nat}
    (h : readUintAt bytes offset width = some v) : v < 2 ^ 32 := by
  obtain ⟨hwidth, hlt⟩ := readUintAt_lt_pow h
  rcases hwidth with rfl | rfl
  · exact Nat.lt_trans hlt (by decide)
  · exact hlt

end Cildec
