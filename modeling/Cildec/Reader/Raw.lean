import Cildec.Lib.Logged
import Cildec.Reader
import Mathlib.Order.Bounds.Defs

/-!
# The cursor without its bound (`src/reader.rs`)

The source keeps a plain `pos` beside the slice, and every operation does its own machine
arithmetic: `checked_add`, `saturating_sub`, `wrapping_neg`. `RawReader` is that record; no
field says where the cursor stands.

* `Inside.next`, `Inside.after`: whatever operations ran before, the cursor stands in the bytes;
* `steady_after`: what the next operation can then do;
* `after_ofReader`: the reader that carries its bound runs as this one does.
-/

namespace Cildec

open Wire

/-- The fields of a reader; `pos` is any number. -/
structure RawReader where
  data : List UInt8
  pos : Nat
  base : Nat
  context : String
  deriving DecidableEq, Repr

/-- A fallible operation on a raw reader. -/
abbrev RawRead := EStateM Error RawReader

namespace RawReader

def new (data : List UInt8) (base : Nat) (context : String) : RawReader :=
  ⟨data, 0, base, context⟩

def absolute (r : RawReader) : Nat := satAdd r.base r.pos

/-- `None` where the subtraction would underflow. -/
def remaining (r : RawReader) : Option Nat := checkedSub r.data.length r.pos

/-- `None` where the range would start past the end. -/
def rest (r : RawReader) : Option (List UInt8) := slice? r.data r.pos r.data.length

def err (r : RawReader) (kind : ErrorKind) : Error := Error.new kind r.absolute r.context

def seek (pos : Nat) : RawRead Unit := do
  let r ← get
  if r.data.length < pos then
    throw (r.err .outOfRange)
  else
    set { r with pos := pos }

def skip (n : Nat) : RawRead Unit := do
  let r ← get
  let stop ← orFail (checkedAdd r.pos n) (r.err .outOfRange)
  seek stop

/-- Aligns the cursor up to a multiple of `align`, a power of two, relative to
`origin`. -/
def alignTo (origin align : Nat) : RawRead Unit := do
  let r ← get
  let rel := r.pos - origin
  let pad := wrappingNeg rel &&& (align - 1)
  skip pad

def take (n : Nat) : RawRead (List UInt8) := do
  let r ← get
  let stop ← orFail (checkedAdd r.pos n) (r.err .truncated)
  let bs ← orFail (slice? r.data r.pos stop) (r.err .truncated)
  set { r with pos := stop }
  return bs

def u8 : RawRead UInt8 := do
  let r ← get
  let b ← orFail r.data[r.pos]? (r.err .truncated)
  set { r with pos := r.pos + 1 }
  return b

def i8 : RawRead Int8 := do
  let b ← u8
  return b.toInt8

def u16 : RawRead UInt16 := do
  let b ← take 2
  return UInt16.ofNat (leNat b)

def u32 : RawRead UInt32 := do
  let b ← take 4
  return UInt32.ofNat (leNat b)

def i32 : RawRead Int32 := do
  let v ← u32
  return v.toInt32

def u64 : RawRead UInt64 := do
  let b ← take 8
  return UInt64.ofNat (leNat b)

def i64 : RawRead Int64 := do
  let v ← u64
  return v.toInt64

/-- The bits of the value. -/
def f32 : RawRead UInt32 := u32

/-- The bits of the value. -/
def f64 : RawRead UInt64 := u64

/-! ## Operations as data -/

/-- The operations that return bytes or a value made of them. -/
inductive ReadOp where
  | take (n : Nat)
  | u8 | i8 | u16 | u32 | i32 | u64 | i64 | f32 | f64
  deriving DecidableEq, Repr

namespace ReadOp

def Value : ReadOp → Type
  | take _ => List UInt8
  | u8 => UInt8
  | i8 => Int8
  | u16 => UInt16
  | u32 | f32 => UInt32
  | i32 => Int32
  | u64 | f64 => UInt64
  | i64 => Int64

def width : ReadOp → Nat
  | take n => n
  | u8 | i8 => 1
  | u16 => 2
  | u32 | i32 | f32 => 4
  | u64 | i64 | f64 => 8

/-- The little-endian form of a value. -/
def bytes : (op : ReadOp) → op.Value → List UInt8
  | take _, bs => bs
  | u8, v => [v]
  | i8, v => [Int8.toUInt8 v]
  | u16, v => leBytes 2 (UInt16.toNat v)
  | u32, v | f32, v => leBytes 4 (UInt32.toNat v)
  | i32, v => leBytes 4 (Int32.toUInt32 v).toNat
  | u64, v | f64, v => leBytes 8 (UInt64.toNat v)
  | i64, v => leBytes 8 (Int64.toUInt64 v).toNat

def exec : (op : ReadOp) → RawRead op.Value
  | take n => RawReader.take n
  | u8 => RawReader.u8
  | i8 => RawReader.i8
  | u16 => RawReader.u16
  | u32 => RawReader.u32
  | i32 => RawReader.i32
  | u64 => RawReader.u64
  | i64 => RawReader.i64
  | f32 => RawReader.f32
  | f64 => RawReader.f64

/-- The operation of the reader that carries its bound. -/
def bounded : (op : ReadOp) → Read op.Value
  | take n => Reader.take n
  | u8 => Reader.u8
  | i8 => Reader.i8
  | u16 => Reader.u16
  | u32 | f32 => Reader.u32
  | i32 => Reader.i32
  | u64 | f64 => Reader.u64
  | i64 => Reader.i64

end ReadOp

/-- The operations that move the cursor. An alignment is a power of two of the word. -/
inductive ReaderOp where
  | seek (pos : Nat)
  | skip (n : Nat)
  | alignTo (origin : Nat) (exponent : Fin 64)
  | read (op : ReadOp)
  deriving DecidableEq, Repr

namespace ReaderOp

def Value : ReaderOp → Type
  | seek _ | skip _ | alignTo _ _ => Unit
  | read op => op.Value

def exec : (op : ReaderOp) → RawRead op.Value
  | seek pos => RawReader.seek pos
  | skip n => RawReader.skip n
  | alignTo origin exponent => RawReader.alignTo origin (2 ^ exponent.val)
  | read op => op.exec

def bounded : (op : ReaderOp) → Read op.Value
  | seek pos => Reader.seek pos
  | skip n => Reader.skip n
  | alignTo origin exponent => Reader.alignTo origin (2 ^ exponent.val)
  | read op => op.bounded

/-- The state an operation leaves behind, also where it fails. -/
def next (op : ReaderOp) (r : RawReader) : RawReader := Logged.finalState (op.exec.run r)

end ReaderOp

/-- The state after the operations, whatever came of each. -/
def after : List ReaderOp → RawReader → RawReader
  | [], r => r
  | op :: ops, r => after ops (op.next r)

/-! ## What each operation does -/

/-- `n` more bytes are there, and the machine can name where they end. -/
def Room (r : RawReader) (n : Nat) : Prop := r.pos + n ≤ usizeMax ∧ r.pos + n ≤ r.data.length

instance (r : RawReader) (n : Nat) : Decidable (r.Room n) := inferInstanceAs (Decidable (_ ∧ _))

theorem checkedAdd_of_room {r : RawReader} {n : Nat} (h : r.Room n) :
    checkedAdd r.pos n = some (r.pos + n) := if_pos h.1

theorem seek_run {r : RawReader} {pos : Nat} (h : pos ≤ r.data.length) :
    (seek pos).run r = .ok () { r with pos := pos } := by
  simp [seek, Nat.not_lt.mpr h]

theorem seek_run_error {r : RawReader} {pos : Nat} (h : r.data.length < pos) :
    (seek pos).run r = .error (r.err .outOfRange) r := by
  simp [seek, h]

theorem skip_run {r : RawReader} {n : Nat} (h : r.Room n) :
    (skip n).run r = .ok () { r with pos := r.pos + n } := by
  show (orFail (checkedAdd r.pos n) (r.err .outOfRange) >>= seek).run r = _
  rw [checkedAdd_of_room h]
  exact seek_run h.2

theorem skip_run_error {r : RawReader} {n : Nat} (h : ¬ r.Room n) :
    (skip n).run r = .error (r.err .outOfRange) r := by
  show (orFail (checkedAdd r.pos n) (r.err .outOfRange) >>= seek).run r = _
  by_cases hmax : r.pos + n ≤ usizeMax
  · rw [show checkedAdd r.pos n = some (r.pos + n) from if_pos hmax]
    exact seek_run_error (Nat.not_le.mp fun hle => h ⟨hmax, hle⟩)
  · rw [show checkedAdd r.pos n = none from if_neg hmax]
    rfl

theorem take_run {r : RawReader} {n : Nat} (h : r.Room n) :
    (take n).run r = .ok ((r.data.drop r.pos).take n) { r with pos := r.pos + n } := by
  have hslice := slice?_of_le h.2
  simp only [take, EStateM.run_bind, EStateM.run_get, checkedAdd_of_room h, orFail,
    EStateM.run_pure, hslice, EStateM.run_set]

theorem take_run_error {r : RawReader} {n : Nat} (h : ¬ r.Room n) :
    (take n).run r = .error (r.err .truncated) r := by
  by_cases hmax : r.pos + n ≤ usizeMax
  · have hadd : checkedAdd r.pos n = some (r.pos + n) := if_pos hmax
    have hslice : slice? r.data r.pos (r.pos + n) = none :=
      if_neg fun hle => h ⟨hmax, hle.2⟩
    simp [take, orFail, hadd, hslice]
  · have hadd : checkedAdd r.pos n = none := if_neg hmax
    simp [take, orFail, hadd]

theorem u8_run {r : RawReader} (h : r.pos < r.data.length) :
    u8.run r = .ok r.data[r.pos] { r with pos := r.pos + 1 } := by
  simp only [u8, EStateM.run_bind, EStateM.run_get, List.getElem?_eq_getElem h, orFail,
    EStateM.run_pure, EStateM.run_set]

theorem u8_run_error {r : RawReader} (h : r.data.length ≤ r.pos) :
    u8.run r = .error (r.err .truncated) r := by
  simp [u8, orFail, h]

/-! ## Reads -/

/-- A read that succeeds moves the cursor by `n` and returns the bytes in between, in the form
`enc`; one that fails leaves everything alone. -/
structure Exact (n : Nat) (enc : α → List UInt8) (p : RawRead α) : Prop where
  ok : ∀ r a r', p.run r = .ok a r' →
    r' = { r with pos := r.pos + n } ∧ slice? r.data r.pos (r.pos + n) = some (enc a)
  error : ∀ r e r', p.run r = .error e r' → r' = r

theorem exact_take (n : Nat) : Exact n id (take n) where
  ok r bs r' hrun := by
    by_cases h : r.Room n
    · rw [take_run h] at hrun
      cases hrun
      exact ⟨rfl, slice?_of_le h.2⟩
    · rw [take_run_error h] at hrun
      cases hrun
  error r e r' hrun := by
    by_cases h : r.Room n
    · rw [take_run h] at hrun
      cases hrun
    · rw [take_run_error h] at hrun
      cases hrun
      rfl

theorem exact_u8 : Exact 1 (fun b => [b]) u8 where
  ok r b r' hrun := by
    by_cases h : r.pos < r.data.length
    · rw [u8_run h] at hrun
      cases hrun
      refine ⟨rfl, ?_⟩
      rw [slice?_of_le h, List.drop_eq_getElem_cons h]
      rfl
    · rw [u8_run_error (Nat.not_lt.mp h)] at hrun
      cases hrun
  error r e r' hrun := by
    by_cases h : r.pos < r.data.length
    · rw [u8_run h] at hrun
      cases hrun
    · rw [u8_run_error (Nat.not_lt.mp h)] at hrun
      cases hrun
      rfl

/-- A conversion that gives every `n` bytes a value with those bytes. -/
theorem Exact.map {n : Nat} {enc : α → List UInt8} {enc' : β → List UInt8} {p : RawRead α}
    (hp : Exact n enc p) {f : α → β} (hf : ∀ a, (enc a).length = n → enc' (f a) = enc a) :
    Exact n enc' (p >>= fun a => pure (f a)) where
  ok r b r' hrun := by
    obtain ⟨a, mid, ha, hb⟩ := run_bind_ok_iff.mp hrun
    cases hb
    obtain ⟨hr', hslice⟩ := hp.ok r a r' ha
    have hlen : (enc a).length = n := by
      rw [length_of_slice? hslice, Nat.add_sub_cancel_left]
    exact ⟨hr', by rw [hf a hlen, hslice]⟩
  error r e r' hrun := by
    rw [EStateM.run_bind] at hrun
    cases hp' : p.run r with
    | ok a mid =>
        rw [hp'] at hrun
        cases hrun
    | error e' mid =>
        rw [hp'] at hrun
        cases hrun
        exact hp.error r e r' hp'

theorem exact_i8 : Exact 1 (fun v : Int8 => [v.toUInt8]) i8 :=
  exact_u8.map fun b _ => by rw [UInt8.toUInt8_toInt8]

theorem exact_u16 : Exact 2 (fun v : UInt16 => leBytes 2 v.toNat) u16 :=
  (exact_take 2).map fun _ => leBytes_ofNat_leNat_u16

theorem exact_u32 : Exact 4 (fun v : UInt32 => leBytes 4 v.toNat) u32 :=
  (exact_take 4).map fun _ => leBytes_ofNat_leNat_u32

theorem exact_i32 : Exact 4 (fun v : Int32 => leBytes 4 v.toUInt32.toNat) i32 :=
  exact_u32.map fun v _ => by rw [UInt32.toUInt32_toInt32]

theorem exact_u64 : Exact 8 (fun v : UInt64 => leBytes 8 v.toNat) u64 :=
  (exact_take 8).map fun _ => leBytes_ofNat_leNat_u64

theorem exact_i64 : Exact 8 (fun v : Int64 => leBytes 8 v.toUInt64.toNat) i64 :=
  exact_u64.map fun v _ => by rw [UInt64.toUInt64_toInt64]

theorem ReadOp.exact (op : ReadOp) : Exact op.width op.bytes op.exec := by
  cases op with
  | take n => exact exact_take n
  | u8 => exact exact_u8
  | i8 => exact exact_i8
  | u16 => exact exact_u16
  | u32 => exact exact_u32
  | i32 => exact exact_i32
  | u64 => exact exact_u64
  | i64 => exact exact_i64
  | f32 => exact exact_u32
  | f64 => exact exact_u64

/-! ## Alignment -/

/-- Two's complement: the pad and the distance make up a multiple of the alignment. -/
theorem two_pow_dvd_add_pad {k : Nat} (hk : k ≤ 64) (rel : Nat) :
    2 ^ k ∣ rel + (wrappingNeg rel &&& (2 ^ k - 1)) := by
  have hword : 2 ^ 64 ∣ rel + wrappingNeg rel := by
    rw [wrappingNeg]
    omega
  have hpow : 2 ^ k ∣ rel + wrappingNeg rel := (pow_dvd_pow 2 hk).trans hword
  rw [Nat.and_two_pow_sub_one_eq_mod]
  rw [Nat.dvd_iff_mod_eq_zero] at hpow ⊢
  rwa [Nat.add_mod, Nat.mod_mod, ← Nat.add_mod]

theorem pad_lt (k rel : Nat) : (wrappingNeg rel &&& (2 ^ k - 1)) < 2 ^ k := by
  rw [Nat.and_two_pow_sub_one_eq_mod]
  exact Nat.mod_lt _ (Nat.two_pow_pos k)

/-- The padded position is the first one from the cursor on that is aligned. -/
theorem isLeast_padded {pos origin k : Nat} (hk : k ≤ 64) (horigin : origin ≤ pos) :
    IsLeast {p | pos ≤ p ∧ 2 ^ k ∣ p - origin}
      (pos + (wrappingNeg (pos - origin) &&& (2 ^ k - 1))) := by
  have hdvd := two_pow_dvd_add_pad hk (pos - origin)
  have hlt := pad_lt k (pos - origin)
  generalize (wrappingNeg (pos - origin) &&& (2 ^ k - 1)) = pad at hdvd hlt ⊢
  constructor
  · refine ⟨Nat.le_add_right _ _, ?_⟩
    rwa [Nat.sub_add_comm horigin]
  · rintro p ⟨hpos, hp⟩
    by_contra hless
    -- both distances are multiples, and they are less than one alignment apart
    have hdiff : 2 ^ k ∣ pos - origin + pad - (p - origin) := Nat.dvd_sub hdvd hp
    have hle := Nat.le_of_dvd (by omega) hdiff
    omega

/-! ## Runs -/

theorem seek_ok {r r' : RawReader} {pos : Nat} {u : Unit} (hrun : (seek pos).run r = .ok u r') :
    pos ≤ r.data.length ∧ r' = { r with pos := pos } := by
  by_cases h : pos ≤ r.data.length
  · rw [seek_run h] at hrun
    cases hrun
    exact ⟨h, rfl⟩
  · rw [seek_run_error (Nat.not_le.mp h)] at hrun
    cases hrun

theorem seek_error {r r' : RawReader} {pos : Nat} {e : Error}
    (hrun : (seek pos).run r = .error e r') : r' = r := by
  by_cases h : pos ≤ r.data.length
  · rw [seek_run h] at hrun
    cases hrun
  · rw [seek_run_error (Nat.not_le.mp h)] at hrun
    cases hrun
    rfl

theorem skip_ok {r r' : RawReader} {n : Nat} {u : Unit} (hrun : (skip n).run r = .ok u r') :
    r.Room n ∧ r' = { r with pos := r.pos + n } := by
  by_cases h : r.Room n
  · rw [skip_run h] at hrun
    cases hrun
    exact ⟨h, rfl⟩
  · rw [skip_run_error h] at hrun
    cases hrun

theorem skip_error {r r' : RawReader} {n : Nat} {e : Error}
    (hrun : (skip n).run r = .error e r') : r' = r := by
  by_cases h : r.Room n
  · rw [skip_run h] at hrun
    cases hrun
  · rw [skip_run_error h] at hrun
    cases hrun
    rfl

namespace ReaderOp

/-- A failed operation leaves everything alone. -/
theorem unchanged (op : ReaderOp) {r r' : RawReader} {e : Error}
    (hrun : op.exec.run r = .error e r') : r' = r := by
  cases op with
  | seek pos => exact seek_error hrun
  | skip n => exact skip_error hrun
  | alignTo origin exponent => exact skip_error hrun
  | read op => exact op.exact.error r e r' hrun

/-- A successful one moves the cursor, and to a place in the bytes. -/
theorem moved (op : ReaderOp) {r r' : RawReader} {v : op.Value}
    (hrun : op.exec.run r = .ok v r') : ∃ pos ≤ r.data.length, r' = { r with pos := pos } := by
  cases op with
  | seek pos => exact ⟨pos, seek_ok hrun⟩
  | skip n =>
      obtain ⟨hroom, rfl⟩ := skip_ok hrun
      exact ⟨_, hroom.2, rfl⟩
  | alignTo origin exponent =>
      obtain ⟨hroom, rfl⟩ := skip_ok hrun
      exact ⟨_, hroom.2, rfl⟩
  | read op =>
      obtain ⟨rfl, hslice⟩ := op.exact.ok r v r' hrun
      exact ⟨_, (slice?_eq_some_iff.mp hslice).1.2, rfl⟩

end ReaderOp

/-- The cursor stands in the bytes `data`. -/
structure Inside (data : List UInt8) (r : RawReader) : Prop where
  data_eq : r.data = data
  pos_le : r.pos ≤ data.length

theorem Inside.new (data : List UInt8) (base : Nat) (context : String) :
    Inside data (new data base context) := ⟨rfl, Nat.zero_le _⟩

theorem Inside.next {data : List UInt8} {r : RawReader} (h : Inside data r) (op : ReaderOp) :
    Inside data (op.next r) := by
  obtain ⟨rfl, hpos⟩ := h
  cases hrun : op.exec.run r with
  | ok v r' =>
      obtain ⟨pos, hle, rfl⟩ := op.moved hrun
      rw [ReaderOp.next, hrun]
      exact ⟨rfl, hle⟩
  | error e r' =>
      rw [ReaderOp.next, hrun, op.unchanged hrun]
      exact ⟨rfl, hpos⟩

theorem Inside.after {data : List UInt8} {r : RawReader} (h : Inside data r)
    (ops : List ReaderOp) : Inside data (after ops r) := by
  induction ops generalizing r with
  | nil => exact h
  | cons op ops ih => exact ih (h.next op)

/-- What holds of a reader over `data` and of every operation that may come next. -/
structure Steady (data : List UInt8) (r : RawReader) : Prop where
  pos_le : r.pos ≤ data.length
  remaining_eq : r.remaining = some (data.length - r.pos)
  rest_eq : r.rest = some (data.drop r.pos)
  failed : ∀ (op : ReaderOp) e r', op.exec.run r = .error e r' → r'.pos = r.pos
  read : ∀ (op : ReadOp) v r', op.exec.run r = .ok v r' →
    r'.pos = r.pos + op.width ∧ slice? data r.pos (r.pos + op.width) = some (op.bytes v)
  aligned : ∀ origin (exponent : Fin 64) u r',
    (alignTo origin (2 ^ exponent.val)).run r = .ok u r' → origin ≤ r.pos →
      IsLeast {p | r.pos ≤ p ∧ 2 ^ exponent.val ∣ p - origin} r'.pos

theorem Inside.steady {data : List UInt8} {r : RawReader} (h : Inside data r) :
    Steady data r := by
  obtain ⟨rfl, hpos⟩ := h
  constructor
  case pos_le => exact hpos
  case remaining_eq => exact if_pos hpos
  case rest_eq =>
    refine slice?_eq_some_iff.mpr ⟨⟨hpos, le_rfl⟩, ?_⟩
    rw [← List.length_drop, List.take_length]
  case failed =>
    intro op e r' hrun
    rw [op.unchanged hrun]
  case read =>
    intro op v r' hrun
    obtain ⟨rfl, hslice⟩ := op.exact.ok r v r' hrun
    exact ⟨rfl, hslice⟩
  case aligned =>
    intro origin exponent u r' hrun horigin
    obtain ⟨_, rfl⟩ := skip_ok hrun
    exact isLeast_padded exponent.isLt.le horigin

/-- Over every run of operations, whether each succeeds or fails: the cursor never leaves the
bytes, and each operation does what it says. -/
theorem steady_after (data : List UInt8) (base : Nat) (context : String)
    (ops : List ReaderOp) : Steady data (after ops (new data base context)) :=
  ((Inside.new data base context).after ops).steady

example : (after [.read .u16, .read .u32, .skip 4, .alignTo 1 2]
    (new (List.replicate 16 0) 0x100 "test")).pos = 13 := rfl

/-! ## The reader that carries its bound -/

/-- The fields of a reader. -/
def ofReader (r : Reader) : RawReader := ⟨r.data, r.pos, r.base, r.context⟩

/-- An outcome with the fields of the reader it leaves. -/
def outcome : EStateM.Result Error Reader α → EStateM.Result Error RawReader α
  | .ok a r => .ok a (ofReader r)
  | .error e r => .error e (ofReader r)

/-- Over bytes that the machine can count, `p` does what `q` does. -/
def Refines (p : RawRead α) (q : Read α) : Prop :=
  ∀ r : Reader, r.data.length ≤ usizeMax → p.run (ofReader r) = outcome (q.run r)

theorem room_ofReader {r : Reader} {n : Nat} (hlen : r.data.length ≤ usizeMax) :
    (ofReader r).Room n ↔ n ≤ r.remaining := by
  have hpos := r.pos_le
  have hremaining : r.remaining = r.data.length - r.pos := rfl
  simp only [Room, ofReader]
  omega

theorem ofReader_advance {r : Reader} {n : Nat} (h : n ≤ r.remaining) :
    ofReader (r.advance n) = { ofReader r with pos := r.pos + n } := by
  simp only [ofReader, Reader.advance_pos h, Reader.advance_data, Reader.advance_base,
    Reader.advance_context]

theorem refines_seek (pos : Nat) : Refines (seek pos) (Reader.seek pos) := by
  intro r _
  by_cases h : pos ≤ r.data.length
  · rw [seek_run (show pos ≤ (ofReader r).data.length from h)]
    simp only [Reader.seek, EStateM.run_bind, EStateM.run_get, h, dif_pos, EStateM.run_set]
    rfl
  · rw [seek_run_error (show (ofReader r).data.length < pos from Nat.not_le.mp h)]
    simp only [Reader.seek, EStateM.run_bind, EStateM.run_get, h, not_false_eq_true, dif_neg]
    rfl

theorem refines_skip (n : Nat) : Refines (skip n) (Reader.skip n) := by
  intro r hlen
  by_cases h : n ≤ r.remaining
  · rw [skip_run ((room_ofReader hlen).mpr h), Reader.skip_run h, outcome, ofReader_advance h]
    rfl
  · rw [skip_run_error (mt (room_ofReader hlen).mp h), Reader.skip_run_error (Nat.not_le.mp h)]
    rfl

theorem refines_alignTo (origin align : Nat) :
    Refines (alignTo origin align) (Reader.alignTo origin align) := fun r hlen =>
  refines_skip (wrappingNeg (r.pos - origin) &&& (align - 1)) r hlen

theorem refines_take (n : Nat) : Refines (take n) (Reader.take n) := by
  intro r hlen
  by_cases h : n ≤ r.remaining
  · rw [take_run ((room_ofReader hlen).mpr h), Reader.take_run h, outcome, ofReader_advance h]
    rfl
  · rw [take_run_error (mt (room_ofReader hlen).mp h), Reader.take_run_error (Nat.not_le.mp h)]
    rfl

theorem refines_u8 : Refines u8 Reader.u8 := by
  intro r _
  by_cases h : r.pos < r.data.length
  · rw [u8_run (show (ofReader r).pos < (ofReader r).data.length from h)]
    simp only [Reader.u8, EStateM.run_bind, EStateM.run_get, h, dif_pos, EStateM.run_set,
      EStateM.run_pure]
    rfl
  · rw [u8_run_error (show (ofReader r).data.length ≤ (ofReader r).pos from Nat.not_lt.mp h)]
    simp only [Reader.u8, EStateM.run_bind, EStateM.run_get, h, not_false_eq_true, dif_neg]
    rfl

theorem Refines.map {p : RawRead α} {q : Read α} (h : Refines p q) (f : α → β) :
    Refines (p >>= fun a => pure (f a)) (q >>= fun a => pure (f a)) := by
  intro r hlen
  rw [EStateM.run_bind, EStateM.run_bind, h r hlen]
  cases q.run r with
  | ok a r' => rfl
  | error e r' => rfl

theorem refines_u32 : Refines u32 Reader.u32 :=
  (refines_take 4).map fun b => UInt32.ofNat (leNat b)

theorem refines_u64 : Refines u64 Reader.u64 :=
  (refines_take 8).map fun b => UInt64.ofNat (leNat b)

theorem ReadOp.refines (op : ReadOp) : Refines op.exec op.bounded := by
  cases op with
  | take n => exact refines_take n
  | u8 => exact refines_u8
  | i8 => exact refines_u8.map UInt8.toInt8
  | u16 => exact (refines_take 2).map fun b => UInt16.ofNat (leNat b)
  | u32 => exact refines_u32
  | i32 => exact refines_u32.map UInt32.toInt32
  | u64 => exact refines_u64
  | i64 => exact refines_u64.map UInt64.toInt64
  | f32 => exact refines_u32
  | f64 => exact refines_u64

theorem ReaderOp.refines (op : ReaderOp) : Refines op.exec op.bounded := by
  cases op with
  | seek pos => exact refines_seek pos
  | skip n => exact refines_skip n
  | alignTo origin exponent => exact refines_alignTo origin (2 ^ exponent.val)
  | read op => exact op.refines

/-- The reader after the operations. -/
def afterBounded : List ReaderOp → Reader → Reader
  | [], r => r
  | op :: ops, r => afterBounded ops (Logged.finalState (op.bounded.run r))

theorem next_ofReader (op : ReaderOp) {r : Reader} (hlen : r.data.length ≤ usizeMax) :
    op.next (ofReader r) = ofReader (Logged.finalState (op.bounded.run r)) := by
  rw [ReaderOp.next, op.refines r hlen]
  cases op.bounded.run r with
  | ok v r' => rfl
  | error e r' => rfl

/-- Whatever the operations, the reader with the bound and the one without stay the same. -/
theorem after_ofReader (ops : List ReaderOp) {r : Reader} (hlen : r.data.length ≤ usizeMax) :
    after ops (ofReader r) = ofReader (afterBounded ops r) := by
  induction ops generalizing r with
  | nil => rfl
  | cons op ops ih =>
      have hnext := next_ofReader op hlen
      have hdata : (op.next (ofReader r)).data = r.data :=
        (Inside.next ⟨rfl, r.pos_le⟩ op).data_eq
      rw [hnext] at hdata
      rw [after, afterBounded, hnext]
      exact ih (by rwa [show (Logged.finalState (op.bounded.run r)).data = r.data from hdata])

end RawReader

end Cildec
