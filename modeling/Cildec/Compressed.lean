import Cildec.Error
import Mathlib.Data.Nat.Bitwise

/-!
# Compressed integers (`src/compressed.rs`)

One, two or four bytes, selected by the top bits of the first. A signed value is
the same payload with its sign rotated into bit 0. Values are `Nat` and `Int`:
a payload has at most 29 bits.

* `Payload`: the spellings of a payload (ECMA-335 II.23.2);
* `readPayload_ok_iff`: the reader accepts exactly those;
* `exists_writeU32`, `exists_writeI32`: every value in range has a shortest spelling;
* `unsigned_exact`, `signed_exact`: the two readers against the writer and the format.
-/

namespace Cildec.Compressed

/-- The largest value that a compressed unsigned integer can encode. -/
def maxCompressedU32 : Nat := 0x1FFFFFFF

def context : String := "compressed integer"

/-- The payload of the compressed integer at the front of `bytes`, and the
number of bytes it takes. -/
def readPayload (bytes : List UInt8) : Result (Nat × Nat) :=
  match bytes with
  | [] => .error (Error.new .truncated 0 context)
  | b0 :: tail =>
      if b0 &&& 0x80 = 0 then
        .ok (b0.toNat, 1)
      else if b0 &&& 0xC0 = 0x80 then
        match tail with
        | b1 :: _ => .ok (((b0 &&& 0x3F).toNat <<< 8) ||| b1.toNat, 2)
        | [] => .error (Error.new .truncated 1 context)
      else if b0 &&& 0xE0 = 0xC0 then
        match tail with
        | b1 :: b2 :: b3 :: _ =>
            .ok (((b0 &&& 0x1F).toNat <<< 24) ||| (b1.toNat <<< 16) ||| (b2.toNat <<< 8) |||
              b3.toNat, 4)
        | _ => .error (Error.new .truncated 1 context)
      else
        .error (Error.new .malformed 0 context)

/-- Decodes a compressed unsigned integer: the value and the bytes consumed. -/
def readU32 (bytes : List UInt8) : Result (Nat × Nat) := readPayload bytes

/-- Undoes the one-bit rotation: the encoded value carries its sign in bit 0. -/
def rotate (raw : Nat) (signBit : Int) : Int :=
  let value : Int := (raw >>> 1 : Nat)
  if raw &&& 1 ≠ 0 then value - signBit else value

/-- The weight of the sign in a payload of `width` bytes. -/
def signBit (width : Nat) : Int :=
  if width = 1 then 0x40 else if width = 2 then 0x2000 else 0x10000000

/-- Decodes a compressed signed integer: the value and the bytes consumed. -/
def readI32 (bytes : List UInt8) : Result (Int × Nat) :=
  match bytes with
  | [] => .error (Error.new .truncated 0 context)
  | b0 :: tail =>
      if b0 &&& 0x80 = 0 then
        .ok (rotate b0.toNat 0x40, 1)
      else if b0 &&& 0xC0 = 0x80 then
        match tail with
        | b1 :: _ => .ok (rotate (((b0 &&& 0x3F).toNat <<< 8) ||| b1.toNat) 0x2000, 2)
        | [] => .error (Error.new .truncated 1 context)
      else if b0 &&& 0xE0 = 0xC0 then
        match tail with
        | b1 :: b2 :: b3 :: _ =>
            .ok (rotate (((b0 &&& 0x1F).toNat <<< 24) ||| (b1.toNat <<< 16) |||
              (b2.toNat <<< 8) ||| b3.toNat) 0x10000000, 4)
        | _ => .error (Error.new .truncated 1 context)
      else
        .error (Error.new .malformed 0 context)

/-- The bytes of a payload of `width` bytes. -/
def payloadBytes (width raw : Nat) : List UInt8 :=
  if width = 1 then [UInt8.ofNat raw]
  else if width = 2 then [(0x80 : UInt8) ||| UInt8.ofNat (raw >>> 8), UInt8.ofNat raw]
  else [(0xC0 : UInt8) ||| UInt8.ofNat (raw >>> 24), UInt8.ofNat (raw >>> 16), UInt8.ofNat (raw >>> 8),
    UInt8.ofNat raw]

/-- Encodes an unsigned value in the shortest form that holds it. -/
def writeU32 (value : Nat) : Option (List UInt8) :=
  if value < 0x80 then some (payloadBytes 1 value)
  else if value < 0x4000 then some (payloadBytes 2 value)
  else if value ≤ maxCompressedU32 then some (payloadBytes 4 value)
  else none

/-- The payload of a signed value whose sign weighs `sign`. -/
def unrotate (value sign : Int) : Nat :=
  if 0 ≤ value then (2 * value).toNat else (2 * (value + sign)).toNat + 1

/-- Encodes a signed value in the shortest form that holds it (ECMA-335 II.23.2). -/
def writeI32 (value : Int) : Option (List UInt8) :=
  if -0x40 ≤ value ∧ value < 0x40 then some (payloadBytes 1 (unrotate value 0x40))
  else if -0x2000 ≤ value ∧ value < 0x2000 then some (payloadBytes 2 (unrotate value 0x2000))
  else if -0x10000000 ≤ value ∧ value < 0x10000000 then
    some (payloadBytes 4 (unrotate value 0x10000000))
  else none

/-! ## The spellings of a payload -/

/-- `bs` spells the payload `v`. -/
inductive Payload : Nat → List UInt8 → Prop
  | one (b0 : UInt8) (h : b0.toNat < 0x80) : Payload b0.toNat [b0]
  | two (b0 b1 : UInt8) (h : b0.toNat / 64 = 2) :
      Payload (b0.toNat % 64 * 2 ^ 8 + b1.toNat) [b0, b1]
  | four (b0 b1 b2 b3 : UInt8) (h : b0.toNat / 32 = 6) :
      Payload (b0.toNat % 32 * 2 ^ 24 + b1.toNat * 2 ^ 16 + b2.toNat * 2 ^ 8 + b3.toNat)
        [b0, b1, b2, b3]

/-- What the tests on the first byte say about it. -/
theorem lead_bits (b : UInt8) : (b &&& 0x80 = 0 ↔ b.toNat < 0x80) ∧
    (b &&& 0xC0 = 0x80 ↔ b.toNat / 64 = 2) ∧ (b &&& 0xE0 = 0xC0 ↔ b.toNat / 32 = 6) ∧
    (b &&& 0x3F).toNat = b.toNat % 64 ∧ (b &&& 0x1F).toNat = b.toNat % 32 := by
  have hall : ∀ n : Fin 256, (UInt8.ofNat n.val &&& 0x80 = 0 ↔ n.val < 0x80) ∧
      (UInt8.ofNat n.val &&& 0xC0 = 0x80 ↔ n.val / 64 = 2) ∧
      (UInt8.ofNat n.val &&& 0xE0 = 0xC0 ↔ n.val / 32 = 6) ∧
      (UInt8.ofNat n.val &&& 0x3F).toNat = n.val % 64 ∧
      (UInt8.ofNat n.val &&& 0x1F).toNat = n.val % 32 := by
    decide +kernel
  have h := hall ⟨b.toNat, b.toNat_lt⟩
  rwa [UInt8.ofNat_toNat] at h

theorem or_two (hi : Nat) (b : UInt8) : (hi <<< 8) ||| b.toNat = hi * 2 ^ 8 + b.toNat := by
  rw [← Nat.shiftLeft_add_eq_or_of_lt b.toNat_lt, Nat.shiftLeft_eq]

theorem or_four (hi : Nat) (b1 b2 b3 : UInt8) :
    (hi <<< 24) ||| (b1.toNat <<< 16) ||| (b2.toNat <<< 8) ||| b3.toNat =
      hi * 2 ^ 24 + b1.toNat * 2 ^ 16 + b2.toNat * 2 ^ 8 + b3.toNat := by
  have h1 := b1.toNat_lt
  have h2 := b2.toNat_lt
  have h3 := b3.toNat_lt
  have hfirst : (hi <<< 24) ||| (b1.toNat <<< 16) = (hi * 2 ^ 8 + b1.toNat) <<< 16 := by
    rw [← Nat.shiftLeft_add_eq_or_of_lt (by rw [Nat.shiftLeft_eq]; omega)]
    simp only [Nat.shiftLeft_eq]
    omega
  have hsecond : ((hi * 2 ^ 8 + b1.toNat) <<< 16) ||| (b2.toNat <<< 8) =
      ((hi * 2 ^ 8 + b1.toNat) * 2 ^ 8 + b2.toNat) <<< 8 := by
    rw [← Nat.shiftLeft_add_eq_or_of_lt (by rw [Nat.shiftLeft_eq]; omega)]
    simp only [Nat.shiftLeft_eq]
    omega
  rw [hfirst, hsecond, or_two]
  omega

theorem Payload.length_pos {v : Nat} {bs : List UInt8} (h : Payload v bs) : 0 < bs.length := by
  cases h <;> exact Nat.zero_lt_succ _

theorem Payload.le_max {v : Nat} {bs : List UInt8} (h : Payload v bs) :
    v ≤ maxCompressedU32 := by
  rw [maxCompressedU32]
  cases h with
  | one b0 h => omega
  | two b0 b1 h =>
      have h1 := b1.toNat_lt
      omega
  | four b0 b1 b2 b3 h =>
      have h1 := b1.toNat_lt
      have h2 := b2.toNat_lt
      have h3 := b3.toNat_lt
      omega

/-- A spelling is read the same whatever follows it. -/
theorem readPayload_append {v : Nat} {bs : List UInt8} (h : Payload v bs) (tl : List UInt8) :
    readPayload (bs ++ tl) = .ok (v, bs.length) := by
  cases h with
  | one b0 h =>
      obtain ⟨hone, _⟩ := lead_bits b0
      exact if_pos (hone.mpr h)
  | two b0 b1 h =>
      obtain ⟨hone, htwo, _, hlow, _⟩ := lead_bits b0
      have hnot : ¬ b0 &&& 0x80 = 0 := fun hz => by
        have := hone.mp hz
        omega
      show (if b0 &&& 0x80 = 0 then _ else _) = _
      rw [if_neg hnot, if_pos (htwo.mpr h), hlow, ← or_two]
      rfl
  | four b0 b1 b2 b3 h =>
      obtain ⟨hone, htwo, hfour, _, hlow⟩ := lead_bits b0
      have hnot : ¬ b0 &&& 0x80 = 0 := fun hz => by
        have := hone.mp hz
        omega
      have hnot' : ¬ b0 &&& 0xC0 = 0x80 := fun hz => by
        have := htwo.mp hz
        omega
      show (if b0 &&& 0x80 = 0 then _ else _) = _
      rw [if_neg hnot, if_neg hnot', if_pos (hfour.mpr h), hlow, ← or_four]
      rfl

/-- What is read was spelled at the front of the bytes. -/
theorem readPayload_ok {v n : Nat} {bytes : List UInt8} (h : readPayload bytes = .ok (v, n)) :
    ∃ bs tl, bytes = bs ++ tl ∧ bs.length = n ∧ Payload v bs := by
  cases bytes with
  | nil => cases h
  | cons b0 tail =>
      obtain ⟨hone, htwo, hfour, hlow, hlow'⟩ := lead_bits b0
      simp only [readPayload] at h
      by_cases h1 : b0 &&& 0x80 = 0
      · rw [if_pos h1] at h
        cases h
        exact ⟨[b0], tail, rfl, rfl, .one b0 (hone.mp h1)⟩
      · rw [if_neg h1] at h
        by_cases h2 : b0 &&& 0xC0 = 0x80
        · rw [if_pos h2] at h
          rcases tail with _ | ⟨b1, tl⟩
          · cases h
          · simp only [hlow, or_two] at h
            cases h
            exact ⟨[b0, b1], tl, rfl, rfl, .two b0 b1 (htwo.mp h2)⟩
        · rw [if_neg h2] at h
          by_cases h3 : b0 &&& 0xE0 = 0xC0
          · rw [if_pos h3] at h
            rcases tail with _ | ⟨b1, _ | ⟨b2, _ | ⟨b3, tl⟩⟩⟩
            · cases h
            · cases h
            · cases h
            · simp only [hlow', or_four] at h
              cases h
              exact ⟨[b0, b1, b2, b3], tl, rfl, rfl, .four b0 b1 b2 b3 (hfour.mp h3)⟩
          · rw [if_neg h3] at h
            cases h

/-- The reader accepts exactly the spellings. -/
theorem readPayload_ok_iff {v n : Nat} {bytes : List UInt8} :
    readPayload bytes = .ok (v, n) ↔
      ∃ bs tl, bytes = bs ++ tl ∧ bs.length = n ∧ Payload v bs := by
  constructor
  · exact readPayload_ok
  · rintro ⟨bs, tl, rfl, rfl, h⟩
    exact readPayload_append h tl

/-- `bs` spells the signed integer `v`. -/
def Signed (v : Int) (bs : List UInt8) : Prop :=
  ∃ raw, Payload raw bs ∧ v = rotate raw (signBit bs.length)

/-- The signed reader repeats the widths of the unsigned one: it rotates the same payload. -/
theorem readI32_eq (bytes : List UInt8) :
    readI32 bytes = (readU32 bytes).map fun p => (rotate p.1 (signBit p.2), p.2) := by
  cases bytes with
  | nil => rfl
  | cons b0 tail =>
      simp only [readI32, readU32, readPayload]
      split
      · rfl
      · split
        · rcases tail with _ | ⟨b1, tl⟩ <;> rfl
        · split
          · rcases tail with _ | ⟨b1, _ | ⟨b2, _ | ⟨b3, tl⟩⟩⟩ <;> rfl
          · rfl

theorem readI32_ok_iff {v : Int} {n : Nat} {bytes : List UInt8} :
    readI32 bytes = .ok (v, n) ↔ ∃ bs tl, bytes = bs ++ tl ∧ bs.length = n ∧ Signed v bs := by
  rw [readI32_eq]
  constructor
  · intro h
    cases hraw : readU32 bytes with
    | error e =>
        rw [hraw] at h
        cases h
    | ok p =>
        obtain ⟨raw, used⟩ := p
        rw [hraw] at h
        cases h
        obtain ⟨bs, tl, rfl, rfl, hbs⟩ := readPayload_ok hraw
        exact ⟨bs, tl, rfl, rfl, raw, hbs, rfl⟩
  · rintro ⟨bs, tl, rfl, rfl, raw, hbs, rfl⟩
    rw [readU32, readPayload_append hbs]
    rfl

/-! ## The shortest spelling -/

theorem payload_one {raw : Nat} (h : raw < 0x80) : Payload raw (payloadBytes 1 raw) := by
  have hb : (UInt8.ofNat raw).toNat = raw := UInt8.toNat_ofNat_of_lt' (by
    show raw < 256
    omega)
  have hone := Payload.one (UInt8.ofNat raw) (by omega)
  rwa [hb] at hone

theorem toNat_or_ofNat {tag : UInt8} {k hi : Nat} (htag : tag.toNat = 2 ^ k * (tag.toNat / 2 ^ k))
    (hhi : hi < 2 ^ k) (hk : k ≤ 8) : (tag ||| UInt8.ofNat hi).toNat = tag.toNat + hi := by
  have hb : (UInt8.ofNat hi).toNat = hi := UInt8.toNat_ofNat_of_lt' (by
    have hpow : 2 ^ k ≤ 2 ^ 8 := Nat.pow_le_pow_right (by decide) hk
    show hi < 256
    omega)
  rw [UInt8.toNat_or, hb, htag, ← Nat.two_pow_add_eq_or_of_lt hhi]

theorem payload_two {raw : Nat} (h : raw < 0x4000) : Payload raw (payloadBytes 2 raw) := by
  have hshift : raw >>> 8 = raw / 2 ^ 8 := Nat.shiftRight_eq_div_pow raw 8
  have h0 : ((0x80 : UInt8) ||| UInt8.ofNat (raw >>> 8)).toNat = 0x80 + raw / 2 ^ 8 := by
    rw [hshift]
    exact toNat_or_ofNat (k := 6) (by decide) (by omega) (by decide)
  have h1 : (UInt8.ofNat raw).toNat = raw % 2 ^ 8 := UInt8.toNat_ofNat'
  have htwo := Payload.two ((0x80 : UInt8) ||| UInt8.ofNat (raw >>> 8)) (UInt8.ofNat raw) (by omega)
  rw [h0, h1, show (0x80 + raw / 2 ^ 8) % 64 * 2 ^ 8 + raw % 2 ^ 8 = raw by omega] at htwo
  exact htwo

theorem payload_four {raw : Nat} (h : raw ≤ maxCompressedU32) :
    Payload raw (payloadBytes 4 raw) := by
  rw [maxCompressedU32] at h
  have hshift : raw >>> 24 = raw / 2 ^ 24 := Nat.shiftRight_eq_div_pow raw 24
  have h0 : ((0xC0 : UInt8) ||| UInt8.ofNat (raw >>> 24)).toNat = 0xC0 + raw / 2 ^ 24 := by
    rw [hshift]
    exact toNat_or_ofNat (k := 5) (by decide) (by omega) (by decide)
  have h1 : (UInt8.ofNat (raw >>> 16)).toNat = raw / 2 ^ 16 % 2 ^ 8 := by
    rw [UInt8.toNat_ofNat', Nat.shiftRight_eq_div_pow]
  have h2 : (UInt8.ofNat (raw >>> 8)).toNat = raw / 2 ^ 8 % 2 ^ 8 := by
    rw [UInt8.toNat_ofNat', Nat.shiftRight_eq_div_pow]
  have h3 : (UInt8.ofNat raw).toNat = raw % 2 ^ 8 := UInt8.toNat_ofNat'
  have hfour := Payload.four ((0xC0 : UInt8) ||| UInt8.ofNat (raw >>> 24)) (UInt8.ofNat (raw >>> 16))
    (UInt8.ofNat (raw >>> 8)) (UInt8.ofNat raw) (by omega)
  rw [h0, h1, h2, h3, show (0xC0 + raw / 2 ^ 24) % 32 * 2 ^ 24 + raw / 2 ^ 16 % 2 ^ 8 * 2 ^ 16 +
    raw / 2 ^ 8 % 2 ^ 8 * 2 ^ 8 + raw % 2 ^ 8 = raw by omega] at hfour
  exact hfour

/-- Every value in range has a spelling. -/
theorem exists_writeU32 {value : Nat} (h : value ≤ maxCompressedU32) :
    ∃ bs, writeU32 value = some bs ∧ Payload value bs := by
  simp only [writeU32]
  by_cases h1 : value < 0x80
  · exact ⟨_, if_pos h1, payload_one h1⟩
  · rw [if_neg h1]
    by_cases h2 : value < 0x4000
    · exact ⟨_, if_pos h2, payload_two h2⟩
    · rw [if_neg h2]
      exact ⟨_, if_pos h, payload_four h⟩

theorem unrotate_lt {value sign : Int} (hlo : -sign ≤ value) (hhi : value < sign) :
    (unrotate value sign : Int) < 2 * sign := by
  simp only [unrotate]
  by_cases h : 0 ≤ value
  · rw [if_pos h]
    omega
  · rw [if_neg h]
    omega

/-- Rotating the sign out again. -/
theorem rotate_unrotate {value sign : Int} (hlo : -sign ≤ value) :
    rotate (unrotate value sign) sign = value := by
  have hodd : ∀ n : Nat, n &&& 1 = n % 2 := fun n => Nat.and_one_is_mod n
  have hhalf : ∀ n : Nat, n >>> 1 = n / 2 := fun n => Nat.shiftRight_eq_div_pow n 1
  simp only [rotate, unrotate, hodd, hhalf]
  by_cases h : 0 ≤ value
  · rw [if_pos h, if_neg (by omega)]
    omega
  · rw [if_neg h, if_pos (by omega)]
    omega

/-- Every signed value in range has a spelling. -/
theorem exists_writeI32 {value : Int} (hlo : -0x10000000 ≤ value) (hhi : value < 0x10000000) :
    ∃ bs, writeI32 value = some bs ∧ Signed value bs := by
  simp only [writeI32]
  by_cases h1 : -0x40 ≤ value ∧ value < 0x40
  · have hlt := unrotate_lt h1.1 h1.2
    exact ⟨_, if_pos h1, _, payload_one (by omega), (rotate_unrotate h1.1).symm⟩
  · rw [if_neg h1]
    by_cases h2 : -0x2000 ≤ value ∧ value < 0x2000
    · have hlt := unrotate_lt h2.1 h2.2
      exact ⟨_, if_pos h2, _, payload_two (by omega), (rotate_unrotate h2.1).symm⟩
    · rw [if_neg h2]
      have hlt := unrotate_lt hlo hhi
      have hmax : maxCompressedU32 = 0x1FFFFFFF := rfl
      exact ⟨_, if_pos ⟨hlo, hhi⟩, _, payload_four (by omega), (rotate_unrotate hlo).symm⟩

theorem readU32_writeU32 {value : Nat} {bs : List UInt8} (h : writeU32 value = some bs)
    (tl : List UInt8) : readU32 (bs ++ tl) = .ok (value, bs.length) := by
  have hle : value ≤ maxCompressedU32 := by
    by_cases hle : value ≤ maxCompressedU32
    · exact hle
    · have hmax : maxCompressedU32 = 0x1FFFFFFF := rfl
      rw [writeU32, if_neg (by omega), if_neg (by omega), if_neg hle] at h
      cases h
  obtain ⟨bs', hbs', hpayload⟩ := exists_writeU32 hle
  rw [h] at hbs'
  cases hbs'
  exact readPayload_append hpayload tl

/-- The shortest spelling of an unsigned value. -/
def bytes (value : Nat) : List UInt8 := (writeU32 value).getD []

/-- The shortest spelling of a signed value. -/
def signedBytes (value : Int) : List UInt8 := (writeI32 value).getD []

theorem payload_bytes {value : Nat} (h : value ≤ maxCompressedU32) :
    Payload value (bytes value) := by
  obtain ⟨bs, hbs, hpayload⟩ := exists_writeU32 h
  rwa [bytes, hbs]

theorem signed_bytes {value : Int} (hlo : -0x10000000 ≤ value) (hhi : value < 0x10000000) :
    Signed value (signedBytes value) := by
  obtain ⟨bs, hbs, hsigned⟩ := exists_writeI32 hlo hhi
  rwa [signedBytes, hbs]

/-! ## Both readers against the format -/

/-- No spelling of a value is shorter than the one that is written. -/
theorem Payload.shortest {v : Nat} {bs : List UInt8} (h : Payload v bs) :
    ∃ ws, writeU32 v = some ws ∧ ws.length ≤ bs.length := by
  have hmax := h.le_max
  simp only [writeU32]
  by_cases h1 : v < 0x80
  · exact ⟨_, if_pos h1, h.length_pos⟩
  · rw [if_neg h1]
    by_cases h2 : v < 0x4000
    · refine ⟨_, if_pos h2, ?_⟩
      -- one byte holds less
      cases h with
      | one b0 h => exact absurd h h1
      | two b0 b1 h => exact Nat.le_refl 2
      | four b0 b1 b2 b3 h => exact Nat.le_of_ble_eq_true rfl
    · rw [if_neg h2]
      refine ⟨_, if_pos hmax, ?_⟩
      cases h with
      | one b0 h => exact absurd h h1
      | two b0 b1 h =>
          have hlt := b1.toNat_lt
          omega
      | four b0 b1 b2 b3 h => exact Nat.le_refl 4

theorem Payload.length_cases {v : Nat} {bs : List UInt8} (h : Payload v bs) :
    bs.length = 1 ∨ bs.length = 2 ∨ bs.length = 4 := by
  cases h with
  | one => exact .inl rfl
  | two => exact .inr (.inl rfl)
  | four => exact .inr (.inr rfl)

theorem writeU32_eq_none_iff {value : Nat} : writeU32 value = none ↔ maxCompressedU32 < value := by
  constructor
  · intro hnone
    by_contra hle
    obtain ⟨bs, hbs, _⟩ := exists_writeU32 (Nat.not_lt.mp hle)
    rw [hnone] at hbs
    cases hbs
  · intro hlt
    have hmax : maxCompressedU32 = 0x1FFFFFFF := rfl
    rw [writeU32, if_neg (by omega), if_neg (by omega), if_neg (by omega)]

/-- What is written is read back whatever follows it; what is read lies in range, depends on
its own bytes only, and is written in no more bytes than any string it is read from. -/
theorem unsigned_exact :
    (∀ value tl, value ≤ maxCompressedU32 →
      ∃ bs, writeU32 value = some bs ∧ readU32 (bs ++ tl) = .ok (value, bs.length)) ∧
    (∀ bytes value n, readU32 bytes = .ok (value, n) →
      (n = 1 ∨ n = 2 ∨ n = 4) ∧ n ≤ bytes.length ∧ value ≤ maxCompressedU32 ∧
      (∀ tl, readU32 (bytes.take n ++ tl) = .ok (value, n)) ∧
      ∃ bs, writeU32 value = some bs ∧ readU32 bs = .ok (value, bs.length) ∧
        ∀ bytes' n', readU32 bytes' = .ok (value, n') → bs.length ≤ n' ∧ n' ≤ bytes'.length) ∧
    (∀ value, writeU32 value = none ↔ maxCompressedU32 < value) := by
  refine ⟨?_, ?_, fun value => writeU32_eq_none_iff⟩
  · intro value tl hle
    obtain ⟨bs, hbs, hpayload⟩ := exists_writeU32 hle
    exact ⟨bs, hbs, readPayload_append hpayload tl⟩
  · intro bytes value n hread
    obtain ⟨bs, tl, rfl, rfl, hpayload⟩ := readPayload_ok hread
    refine ⟨hpayload.length_cases, ?_, hpayload.le_max, ?_, ?_⟩
    · rw [List.length_append]
      exact Nat.le_add_right _ _
    · intro tl'
      rw [List.take_left]
      exact readPayload_append hpayload tl'
    · obtain ⟨ws, hws, hwritten⟩ := exists_writeU32 hpayload.le_max
      have hself := readPayload_append hwritten []
      rw [List.append_nil] at hself
      refine ⟨ws, hws, hself, ?_⟩
      intro bytes' n' hread'
      obtain ⟨bs', tl', rfl, rfl, hpayload'⟩ := readPayload_ok hread'
      obtain ⟨ws', hws', hle⟩ := hpayload'.shortest
      rw [hws] at hws'
      cases hws'
      rw [List.length_append]
      exact ⟨hle, Nat.le_add_right _ _⟩

/-- The narrowest of the three widths whose payload holds a signed value. -/
def signedWidth (value : Int) : Nat :=
  if -0x40 ≤ value ∧ value < 0x40 then 1
  else if -0x2000 ≤ value ∧ value < 0x2000 then 2
  else 4

/-- The bits of a payload of `width` bytes. -/
def payloadBits (width : Nat) : Nat := if width = 1 then 7 else if width = 2 then 14 else 29

/-- The encoding of a signed value (ECMA-335 II.23.2): its two's complement, rotated left by
one, behind the prefix of its width. -/
def encodeI32 (value : Int) : List UInt8 :=
  payloadBytes (signedWidth value)
    ((BitVec.ofInt (payloadBits (signedWidth value)) value).rotateLeft 1).toNat

/-- Rotating the two's complement moves the sign into bit 0. -/
theorem toNat_rotateLeft_ofInt {bits : Nat} {value : Int}
    (hlo : -2 ^ (bits + 1) ≤ value) (hhi : value < 2 ^ (bits + 1)) :
    ((BitVec.ofInt (bits + 2) value).rotateLeft 1).toNat = unrotate value (2 ^ (bits + 1)) := by
  have hpow : (2 : Nat) ^ (bits + 2) = 2 * 2 ^ (bits + 1) := by rw [Nat.pow_succ, Nat.mul_comm]
  have hcast : ((2 ^ (bits + 1) : Nat) : Int) = 2 ^ (bits + 1) := by push_cast; rfl
  have hone : 1 % (bits + 2) = 1 := Nat.mod_eq_of_lt (by omega)
  rw [BitVec.toNat_rotateLeft, BitVec.toNat_ofInt, hone, Nat.shiftLeft_eq,
    Nat.shiftRight_eq_div_pow, show bits + 2 - 1 = bits + 1 by omega, unrotate, hpow]
  rw [← hcast] at hlo hhi ⊢
  have hpos : 0 < 2 ^ (bits + 1) := Nat.two_pow_pos _
  generalize (2 : Nat) ^ (bits + 1) = sign at *
  by_cases hneg : 0 ≤ value
  · -- the sign bit is clear
    obtain ⟨v, rfl⟩ := Int.eq_ofNat_of_zero_le hneg
    have hv : v < sign := Int.ofNat_lt.mp hhi
    have hmod : ((v : Int) % ((2 * sign : Nat) : Int)).toNat = v := by
      rw [Int.emod_eq_of_lt hneg (by omega)]
      rfl
    rw [if_pos hneg, hmod, Nat.div_eq_of_lt hv, Nat.or_zero, Nat.mod_eq_of_lt (by omega)]
    omega
  · obtain ⟨v, hv⟩ : ∃ v : Nat, value + sign = v := Int.eq_ofNat_of_zero_le (by omega)
    have hmod : (value % ((2 * sign : Nat) : Int)).toNat = sign + v := by
      rw [← Int.add_emod_right, Int.emod_eq_of_lt (by omega) (by omega)]
      omega
    have hdiv : (sign + v) / sign = 1 := by
      rw [Nat.add_div_left _ hpos, Nat.div_eq_of_lt (by omega)]
    have hlow : (sign + v) * 2 ^ 1 % (2 * sign) = 2 ^ 1 * v := by
      rw [show (sign + v) * 2 ^ 1 = 2 ^ 1 * v + 2 * sign by omega, Nat.add_mod_right,
        Nat.mod_eq_of_lt (by omega)]
    rw [if_neg hneg, hmod, hdiv, hlow, ← Nat.two_pow_add_eq_or_of_lt (by decide), hv]
    omega

/-- The writer of signed values is the encoding of the format. -/
theorem writeI32_eq {value : Int} (hlo : -0x10000000 ≤ value) (hhi : value < 0x10000000) :
    writeI32 value = some (encodeI32 value) := by
  unfold writeI32 encodeI32 signedWidth
  by_cases h1 : -0x40 ≤ value ∧ value < 0x40
  · have hraw := @toNat_rotateLeft_ofInt 5 value h1.1 h1.2
    rw [if_pos h1, if_pos h1]
    exact congrArg (fun raw => some (payloadBytes 1 raw)) hraw.symm
  · rw [if_neg h1, if_neg h1]
    by_cases h2 : -0x2000 ≤ value ∧ value < 0x2000
    · have hraw := @toNat_rotateLeft_ofInt 12 value h2.1 h2.2
      rw [if_pos h2, if_pos h2]
      exact congrArg (fun raw => some (payloadBytes 2 raw)) hraw.symm
    · have hraw := @toNat_rotateLeft_ofInt 27 value hlo hhi
      rw [if_neg h2, if_neg h2, if_pos ⟨hlo, hhi⟩]
      exact congrArg (fun raw => some (payloadBytes 4 raw)) hraw.symm

theorem encodeI32_length (value : Int) : (encodeI32 value).length = signedWidth value := by
  unfold encodeI32 signedWidth
  split
  · rfl
  · split <;> rfl

/-- A payload of a width rotates into the range of the width. -/
theorem rotate_range {raw : Nat} {sign : Int} (h : (raw : Int) < 2 * sign) :
    -sign ≤ rotate raw sign ∧ rotate raw sign < sign := by
  have hodd : raw &&& 1 = raw % 2 := Nat.and_one_is_mod raw
  have hhalf : raw >>> 1 = raw / 2 := Nat.shiftRight_eq_div_pow raw 1
  simp only [rotate, hodd, hhalf]
  split <;> omega

/-- A spelling of `n` bytes holds `7`, `14` or `29` bits. -/
theorem Payload.lt_signBit {v : Nat} {bs : List UInt8} (h : Payload v bs) :
    (v : Int) < 2 * signBit bs.length := by
  have hmax := h.le_max
  rw [maxCompressedU32] at hmax
  cases h with
  | one b0 h =>
      show ((b0.toNat : Nat) : Int) < 2 * 0x40
      omega
  | two b0 b1 h =>
      have h1 := b1.toNat_lt
      show ((b0.toNat % 64 * 2 ^ 8 + b1.toNat : Nat) : Int) < 2 * 0x2000
      omega
  | four b0 b1 b2 b3 h =>
      show ((_ : Nat) : Int) < 2 * 0x10000000
      omega

/-- The encoding of every value in range is read back whatever follows it; the signed reader
accepts what the unsigned one does, with the same widths and errors, and its values lie in the
range of their width. -/
theorem signed_exact :
    (∀ value tl, -2 ^ 28 ≤ value → value ≤ 2 ^ 28 - 1 →
      readI32 (encodeI32 value ++ tl) = .ok (value, signedWidth value)) ∧
    (∀ bytes n, (∃ value, readI32 bytes = .ok (value, n)) ↔
      ∃ value, readU32 bytes = .ok (value, n)) ∧
    (∀ bytes e, readI32 bytes = .error e ↔ readU32 bytes = .error e) ∧
    (∀ bytes value n, readI32 bytes = .ok (value, n) →
      (n = 1 ∧ -2 ^ 6 ≤ value ∧ value < 2 ^ 6) ∨ (n = 2 ∧ -2 ^ 13 ≤ value ∧ value < 2 ^ 13) ∨
        (n = 4 ∧ -2 ^ 28 ≤ value ∧ value < 2 ^ 28)) := by
  refine ⟨?_, ?_, ?_, ?_⟩
  · intro value tl hlo hhi
    obtain ⟨bs, hbs, hsigned⟩ := @exists_writeI32 value (by omega) (by omega)
    rw [writeI32_eq (by omega) (by omega)] at hbs
    cases hbs
    exact readI32_ok_iff.mpr ⟨_, tl, rfl, encodeI32_length value, hsigned⟩
  · intro bytes n
    rw [readI32_eq]
    cases readU32 bytes with
    | error e =>
        refine iff_of_false ?_ ?_ <;>
        · rintro ⟨_, h⟩
          cases h
    | ok p =>
        constructor
        · rintro ⟨_, h⟩
          cases h
          exact ⟨_, rfl⟩
        · rintro ⟨_, h⟩
          cases h
          exact ⟨_, rfl⟩
  · intro bytes e
    rw [readI32_eq]
    cases readU32 bytes with
    | error e' => exact ⟨fun h => by cases h; rfl, fun h => by cases h; rfl⟩
    | ok p =>
        constructor
        · intro h
          cases h
        · intro h
          cases h
  · intro bytes value n hread
    obtain ⟨bs, tl, rfl, rfl, raw, hpayload, rfl⟩ := readI32_ok_iff.mp hread
    have hrange := rotate_range hpayload.lt_signBit
    rcases hpayload.length_cases with h | h | h
    · rw [h] at hrange ⊢
      exact .inl ⟨rfl, hrange⟩
    · rw [h] at hrange ⊢
      exact .inr (.inl ⟨rfl, hrange⟩)
    · rw [h] at hrange ⊢
      exact .inr (.inr ⟨rfl, hrange⟩)

end Cildec.Compressed
