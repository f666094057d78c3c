import Mathlib.Tactic.Ring

/-!
# Little-endian byte strings

`leBytes n v` is the `n`-byte little-endian form of `v` and `leNat` reads such a
form back. The two are inverse on the values that fit, for every width.
-/

namespace Wire

/-- The number a little-endian byte string stands for. -/
def leNat : List UInt8 → Nat
  | [] => 0
  | b :: bs => b.toNat + 256 * leNat bs

/-- The low `n` bytes of `v`, least significant first. -/
def leBytes : Nat → Nat → List UInt8
  | 0, _ => []
  | n + 1, v => UInt8.ofNat v :: leBytes n (v / 256)

@[simp] theorem leBytes_length (n v : Nat) : (leBytes n v).length = n := by
  induction n generalizing v with
  | zero => rfl
  | succ n ih => simp [leBytes, ih]

/-- Reading the low `n` bytes back gives the value modulo `256 ^ n`. -/
theorem leNat_leBytes_mod (n v : Nat) : leNat (leBytes n v) = v % 256 ^ n := by
  induction n generalizing v with
  | zero => simp [leBytes, leNat, Nat.mod_one]
  | succ n ih =>
      rw [leBytes, leNat, ih, Nat.pow_succ', Nat.mod_mul]
      simp

theorem leNat_leBytes {n v : Nat} (h : v < 256 ^ n) : leNat (leBytes n v) = v := by
  rw [leNat_leBytes_mod, Nat.mod_eq_of_lt h]

theorem leNat_lt (bs : List UInt8) : leNat bs < 256 ^ bs.length := by
  induction bs with
  | nil => simp [leNat]
  | cons b bs ih =>
      have hb : b.toNat < 256 := b.toNat_lt
      rw [leNat, List.length_cons, Nat.pow_succ]
      omega

/-- A byte string is the little-endian form of its number. -/
theorem leBytes_leNat (bs : List UInt8) : leBytes bs.length (leNat bs) = bs := by
  induction bs with
  | nil => rfl
  | cons b bs ih =>
      have hb : b.toNat < 256 := b.toNat_lt
      have hdiv : (b.toNat + 256 * leNat bs) / 256 = leNat bs := by omega
      rw [List.length_cons, leBytes, leNat, hdiv, ih]
      congr 1
      apply UInt8.toNat_inj.mp
      simp only [UInt8.toNat_ofNat']
      omega

theorem leBytes_leNat_of_length {bs : List UInt8} {n : Nat} (h : bs.length = n) :
    leBytes n (leNat bs) = bs := by
  rw [← h, leBytes_leNat]

/-! ## The machine widths -/

theorem ofNat_leNat_leBytes_u16 (v : UInt16) :
    UInt16.ofNat (leNat (leBytes 2 v.toNat)) = v := by
  rw [leNat_leBytes v.toNat_lt, UInt16.ofNat_toNat]

theorem ofNat_leNat_leBytes_u32 (v : UInt32) :
    UInt32.ofNat (leNat (leBytes 4 v.toNat)) = v := by
  rw [leNat_leBytes v.toNat_lt, UInt32.ofNat_toNat]

theorem ofNat_leNat_leBytes_u64 (v : UInt64) :
    UInt64.ofNat (leNat (leBytes 8 v.toNat)) = v := by
  rw [leNat_leBytes v.toNat_lt, UInt64.ofNat_toNat]

theorem leBytes_ofNat_leNat_u16 {bs : List UInt8} (h : bs.length = 2) :
    leBytes 2 (UInt16.ofNat (leNat bs)).toNat = bs := by
  have hlt := leNat_lt bs
  rw [h] at hlt
  rw [UInt16.toNat_ofNat_of_lt' (by simpa using hlt), leBytes_leNat_of_length h]

theorem leBytes_ofNat_leNat_u32 {bs : List UInt8} (h : bs.length = 4) :
    leBytes 4 (UInt32.ofNat (leNat bs)).toNat = bs := by
  have hlt := leNat_lt bs
  rw [h] at hlt
  rw [UInt32.toNat_ofNat_of_lt' (by simpa using hlt), leBytes_leNat_of_length h]

theorem leBytes_ofNat_leNat_u64 {bs : List UInt8} (h : bs.length = 8) :
    leBytes 8 (UInt64.ofNat (leNat bs)).toNat = bs := by
  have hlt := leNat_lt bs
  rw [h] at hlt
  rw [UInt64.toNat_ofNat_of_lt' (by simpa using hlt), leBytes_leNat_of_length h]

end Wire
