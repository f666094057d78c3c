import Mathlib.Data.Nat.Notation

/-!
# UTF-8 with replacement

`String::from_utf8_lossy`: a well-formed sequence becomes its character, and the longest
piece that starts like one and cannot be completed becomes one replacement character. So a
decoded string has at most as many characters as there were bytes (`length_fromUtf8Lossy_le`).
-/

namespace Wire

/-- U+FFFD. -/
def replacementChar : Char := Char.ofNat 0xFFFD

/-- The payload of a lead byte and the ranges of the bytes that have to follow it. -/
def leadByte (byte : UInt8) : Option (Nat × List (UInt8 × UInt8)) :=
  if byte < 0x80 then some (byte.toNat, [])
  else if 0xC2 ≤ byte ∧ byte ≤ 0xDF then some (byte.toNat % 32, [(0x80, 0xBF)])
  else if byte = 0xE0 then some (byte.toNat % 16, [(0xA0, 0xBF), (0x80, 0xBF)])
  else if byte = 0xED then some (byte.toNat % 16, [(0x80, 0x9F), (0x80, 0xBF)])
  else if 0xE1 ≤ byte ∧ byte ≤ 0xEF then some (byte.toNat % 16, [(0x80, 0xBF), (0x80, 0xBF)])
  else if byte = 0xF0 then
    some (byte.toNat % 8, [(0x90, 0xBF), (0x80, 0xBF), (0x80, 0xBF)])
  else if 0xF1 ≤ byte ∧ byte ≤ 0xF3 then
    some (byte.toNat % 8, [(0x80, 0xBF), (0x80, 0xBF), (0x80, 0xBF)])
  else if byte = 0xF4 then
    some (byte.toNat % 8, [(0x80, 0x8F), (0x80, 0xBF), (0x80, 0xBF)])
  else none

/-- The character of a lead byte with payload `code`, as far as the bytes that follow are in
their ranges, and the bytes after it. -/
def continued : List (UInt8 × UInt8) → Nat → List UInt8 → Char × List UInt8
  | [], code, rest => (Char.ofNat code, rest)
  | _ :: _, _, [] => (replacementChar, [])
  | range :: ranges, code, byte :: rest =>
      if range.1 ≤ byte ∧ byte ≤ range.2 then
        continued ranges (code * 64 + byte.toNat % 64) rest
      else (replacementChar, byte :: rest)

/-- The first character of a byte string that starts with `byte`, and the bytes after it. -/
def firstChar (byte : UInt8) (rest : List UInt8) : Char × List UInt8 :=
  match leadByte byte with
  | some lead => continued lead.2 lead.1 rest
  | none => (replacementChar, rest)

/-- The characters of a byte string, at most `fuel` of them. -/
def lossyFrom : Nat → List UInt8 → List Char
  | 0, _ => []
  | _ + 1, [] => []
  | fuel + 1, byte :: rest =>
      (firstChar byte rest).1 :: lossyFrom fuel (firstChar byte rest).2

/-- `String::from_utf8_lossy`. Each character takes a byte, so there are enough. -/
def fromUtf8Lossy (bytes : List UInt8) : String := String.ofList (lossyFrom bytes.length bytes)

theorem length_lossyFrom_le (fuel : Nat) : ∀ bytes, (lossyFrom fuel bytes).length ≤ fuel := by
  induction fuel with
  | zero =>
      intro bytes
      exact Nat.le_refl 0
  | succ fuel ih =>
      intro bytes
      cases bytes with
      | nil => exact Nat.zero_le _
      | cons byte rest => exact Nat.succ_le_succ (ih _)

/-- The string has no more characters than there were bytes. -/
theorem length_fromUtf8Lossy_le (bytes : List UInt8) :
    (fromUtf8Lossy bytes).length ≤ bytes.length := by
  rw [fromUtf8Lossy, String.length_ofList]
  exact length_lossyFrom_le _ _

/-- A cut three-byte sequence is one replacement, a stray continuation byte another. -/
example : lossyFrom 5 [0x41, 0xE2, 0x82, 0x42, 0x80] =
    ['A', replacementChar, 'B', replacementChar] := by decide

end Wire
