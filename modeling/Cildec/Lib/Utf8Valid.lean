import Cildec.Lib.Utf16

/-!
# UTF-8 without replacement

`core::str::from_utf8`: the characters of a byte string that is well formed, or the length of its
longest well-formed prefix.

* `firstChar?_iff`: a character is decoded from exactly the bytes that encode it;
* `fromUtf8_ok_iff`: a text is decoded from exactly the bytes that encode it, so an encoding is
  the only one;
* `fromUtf8_error_iff`: what an error names is the longest prefix that encodes a text;
* `fromUtf8Lossy_encode`: where there is nothing to replace, replacement changes nothing.
-/

namespace Wire

/-- The character of a lead byte with payload `code`, if the bytes that follow are in their
ranges, and the bytes after it. -/
def completed : List (UInt8 × UInt8) → Nat → List UInt8 → Option (Char × List UInt8)
  | [], code, rest => some (Char.ofNat code, rest)
  | _ :: _, _, [] => none
  | range :: ranges, code, byte :: rest =>
      if range.1 ≤ byte ∧ byte ≤ range.2 then
        completed ranges (code * 64 + byte.toNat % 64) rest
      else none

/-- The first character of a byte string that starts with `byte`, if it is well formed, and the
bytes after it. -/
def firstChar? (byte : UInt8) (rest : List UInt8) : Option (Char × List UInt8) :=
  match leadByte byte with
  | some lead => completed lead.2 lead.1 rest
  | none => none

/-- The characters of a byte string, at most `fuel` of them and up to the first one that is not
well formed, and the bytes from there on. -/
def validFrom : Nat → List UInt8 → List Char × List UInt8
  | 0, bytes => ([], bytes)
  | _ + 1, [] => ([], [])
  | fuel + 1, byte :: rest =>
      match firstChar? byte rest with
      | some (c, rest') => (c :: (validFrom fuel rest').1, (validFrom fuel rest').2)
      | none => ([], byte :: rest)

/-- `core::str::from_utf8`: the text, or how many bytes are valid up to the first that is not. -/
def fromUtf8 (bytes : List UInt8) : Except Nat String :=
  match validFrom bytes.length bytes with
  | (text, []) => .ok (String.ofList text)
  | (_, rest) => .error (bytes.length - rest.length)

/-- The bytes of a text. -/
def encodeUtf8 (text : List Char) : List UInt8 := text.flatMap String.utf8EncodeChar

/-! ## One character -/

/-- The value of a character from the payload of its lead byte and the bytes that follow. -/
def payload : Nat → List UInt8 → Nat
  | code, [] => code
  | code, byte :: bytes => payload (code * 64 + byte.toNat % 64) bytes

/-- The bytes are in the ranges. -/
def InRanges : List (UInt8 × UInt8) → List UInt8 → Prop
  | [], [] => True
  | range :: ranges, byte :: bytes =>
      (range.1.toNat ≤ byte.toNat ∧ byte.toNat ≤ range.2.toNat) ∧ InRanges ranges bytes
  | _, _ => False

theorem completed_eq_some_iff {ranges : List (UInt8 × UInt8)} {code : Nat}
    {rest rest' : List UInt8} {c : Char} :
    completed ranges code rest = some (c, rest') ↔
      ∃ bytes, InRanges ranges bytes ∧ rest = bytes ++ rest' ∧ Char.ofNat (payload code bytes) = c := by
  induction ranges generalizing code rest with
  | nil =>
      constructor
      · intro h
        cases h
        exact ⟨[], trivial, rfl, rfl⟩
      · rintro ⟨bytes, hbytes, rfl, rfl⟩
        cases bytes with
        | nil => rfl
        | cons byte bytes => cases hbytes
  | cons range ranges ih =>
      constructor
      · intro h
        cases rest with
        | nil => cases h
        | cons byte rest =>
            rw [completed] at h
            split at h
            · rename_i hrange
              obtain ⟨bytes, hbytes, rfl, hc⟩ := ih.mp h
              exact ⟨byte :: bytes, ⟨hrange, hbytes⟩, rfl, hc⟩
            · cases h
      · rintro ⟨bytes, hbytes, rfl, hc⟩
        cases bytes with
        | nil => cases hbytes
        | cons byte bytes =>
            obtain ⟨hrange, hbytes⟩ := hbytes
            have hbyte : range.1 ≤ byte ∧ byte ≤ range.2 := hrange
            show completed (range :: ranges) code (byte :: (bytes ++ rest')) = _
            rw [completed, if_pos hbyte]
            exact ih.mpr ⟨bytes, hbytes, rfl, hc⟩

/-- A lead byte, with its payload and the ranges of the bytes that have to follow it. -/
inductive Lead (byte : UInt8) : Nat → List (UInt8 × UInt8) → Prop
  | one (h : byte.toNat < 0x80) : Lead byte byte.toNat []
  | two (h : 0xC2 ≤ byte.toNat) (h' : byte.toNat ≤ 0xDF) :
      Lead byte (byte.toNat % 32) [(0x80, 0xBF)]
  | firstThree (h : byte.toNat = 0xE0) : Lead byte (byte.toNat % 16) [(0xA0, 0xBF), (0x80, 0xBF)]
  | noSurrogate (h : byte.toNat = 0xED) : Lead byte (byte.toNat % 16) [(0x80, 0x9F), (0x80, 0xBF)]
  | three (h : 0xE1 ≤ byte.toNat) (h' : byte.toNat ≤ 0xEF) (hne : byte.toNat ≠ 0xED) :
      Lead byte (byte.toNat % 16) [(0x80, 0xBF), (0x80, 0xBF)]
  | firstFour (h : byte.toNat = 0xF0) :
      Lead byte (byte.toNat % 8) [(0x90, 0xBF), (0x80, 0xBF), (0x80, 0xBF)]
  | four (h : 0xF1 ≤ byte.toNat) (h' : byte.toNat ≤ 0xF3) :
      Lead byte (byte.toNat % 8) [(0x80, 0xBF), (0x80, 0xBF), (0x80, 0xBF)]
  | lastFour (h : byte.toNat = 0xF4) :
      Lead byte (byte.toNat % 8) [(0x80, 0x8F), (0x80, 0xBF), (0x80, 0xBF)]

theorem Lead.of_some {byte : UInt8} {lead : Nat × List (UInt8 × UInt8)}
    (h : leadByte byte = some lead) : Lead byte lead.1 lead.2 := by
  simp only [leadByte, UInt8.lt_iff_toNat_lt, UInt8.le_iff_toNat_le, ← UInt8.toNat_inj,
    UInt8.reduceToNat] at h
  split at h
  · cases h
    exact .one ‹_›
  split at h
  · cases h
    exact .two (And.left ‹_›) (And.right ‹_›)
  split at h
  · cases h
    exact .firstThree ‹_›
  split at h
  · cases h
    exact .noSurrogate ‹_›
  split at h
  · cases h
    exact .three (And.left ‹_›) (And.right ‹_›) ‹_›
  split at h
  · cases h
    exact .firstFour ‹_›
  split at h
  · cases h
    exact .four (And.left ‹_›) (And.right ‹_›)
  split at h
  · cases h
    exact .lastFour ‹_›
  · cases h

theorem Lead.some {byte : UInt8} {code : Nat} {ranges : List (UInt8 × UInt8)}
    (h : Lead byte code ranges) : leadByte byte = some (code, ranges) := by
  simp only [leadByte, UInt8.lt_iff_toNat_lt, UInt8.le_iff_toNat_le, ← UInt8.toNat_inj,
    UInt8.reduceToNat]
  cases h with
  | one h => rw [if_pos h]
  | two h h' => rw [if_neg (by omega), if_pos ⟨h, h'⟩]
  | firstThree h => rw [if_neg (by omega), if_neg (by omega), if_pos h]
  | noSurrogate h => rw [if_neg (by omega), if_neg (by omega), if_neg (by omega), if_pos h]
  | three h h' hne =>
      rw [if_neg (by omega), if_neg (by omega), if_neg (by omega), if_neg hne, if_pos ⟨h, h'⟩]
  | firstFour h =>
      rw [if_neg (by omega), if_neg (by omega), if_neg (by omega), if_neg (by omega),
        if_neg (by omega), if_pos h]
  | four h h' =>
      rw [if_neg (by omega), if_neg (by omega), if_neg (by omega), if_neg (by omega),
        if_neg (by omega), if_neg (by omega), if_pos ⟨h, h'⟩]
  | lastFour h =>
      rw [if_neg (by omega), if_neg (by omega), if_neg (by omega), if_neg (by omega),
        if_neg (by omega), if_neg (by omega), if_neg (by omega), if_pos h]

theorem firstChar?_eq_some_iff {byte : UInt8} {rest rest' : List UInt8} {c : Char} :
    firstChar? byte rest = some (c, rest') ↔
      ∃ code ranges bytes, Lead byte code ranges ∧ InRanges ranges bytes ∧
        rest = bytes ++ rest' ∧ Char.ofNat (payload code bytes) = c := by
  constructor
  · intro h
    unfold firstChar? at h
    split at h
    · rename_i lead hlead
      obtain ⟨bytes, hbytes, hrest, hc⟩ := completed_eq_some_iff.mp h
      exact ⟨lead.1, lead.2, bytes, Lead.of_some hlead, hbytes, hrest, hc⟩
    · cases h
  · rintro ⟨code, ranges, bytes, hlead, hbytes, hrest, hc⟩
    simp only [firstChar?, hlead.some]
    exact completed_eq_some_iff.mpr ⟨bytes, hbytes, hrest, hc⟩

/-- The bytes of the character with a number. -/
def scalarBytes (n : Nat) : List UInt8 :=
  if n ≤ 0x7F then [UInt8.ofNat n]
  else if n ≤ 0x7FF then [UInt8.ofNat (n / 64 % 32 + 0xC0), UInt8.ofNat (n % 64 + 0x80)]
  else if n ≤ 0xFFFF then
    [UInt8.ofNat (n / 4096 % 16 + 0xE0), UInt8.ofNat (n / 64 % 64 + 0x80),
      UInt8.ofNat (n % 64 + 0x80)]
  else
    [UInt8.ofNat (n / 262144 % 8 + 0xF0), UInt8.ofNat (n / 4096 % 64 + 0x80),
      UInt8.ofNat (n / 64 % 64 + 0x80), UInt8.ofNat (n % 64 + 0x80)]

theorem utf8EncodeChar_eq (c : Char) : String.utf8EncodeChar c = scalarBytes c.toNat := rfl

theorem ofNat_of_toNat {byte : UInt8} {n : Nat} (h : byte.toNat = n) : UInt8.ofNat n = byte := by
  rw [← h, UInt8.ofNat_toNat]

theorem toNat_ofNat_byte {n : Nat} (h : n < 0x100) : (UInt8.ofNat n).toNat = n :=
  UInt8.toNat_ofNat_of_lt' h

/-- The bytes of a scalar value are a lead byte and bytes in its ranges, whose payload it is. -/
theorem scalarBytes_lead {n : Nat} (h : n.isValidChar) : ∃ byte code ranges bytes,
    scalarBytes n = byte :: bytes ∧ Lead byte code ranges ∧ InRanges ranges bytes ∧
      payload code bytes = n := by
  unfold Nat.isValidChar at h
  have hlast : (UInt8.ofNat (n % 64 + 0x80)).toNat = n % 64 + 0x80 := toNat_ofNat_byte (by omega)
  have hmiddle : (UInt8.ofNat (n / 64 % 64 + 0x80)).toNat = n / 64 % 64 + 0x80 :=
    toNat_ofNat_byte (by omega)
  have hfirst : (UInt8.ofNat (n / 4096 % 64 + 0x80)).toNat = n / 4096 % 64 + 0x80 :=
    toNat_ofNat_byte (by omega)
  by_cases hone : n ≤ 0x7F
  · have hlead : (UInt8.ofNat n).toNat = n := toNat_ofNat_byte (by omega)
    exact ⟨_, _, _, [], if_pos hone, .one (by omega), trivial, hlead⟩
  by_cases htwo : n ≤ 0x7FF
  · have hlead : (UInt8.ofNat (n / 64 % 32 + 0xC0)).toNat = n / 64 % 32 + 0xC0 :=
      toNat_ofNat_byte (by omega)
    refine ⟨_, _, _, _, (if_neg hone).trans (if_pos htwo), .two (by omega) (by omega), ?_, ?_⟩
    · simp only [InRanges, hlast, UInt8.reduceToNat, and_true]
      omega
    · simp only [payload, hlead, hlast]
      omega
  by_cases hthree : n ≤ 0xFFFF
  · have hlead : (UInt8.ofNat (n / 4096 % 16 + 0xE0)).toNat = n / 4096 % 16 + 0xE0 :=
      toNat_ofNat_byte (by omega)
    have hbytes : scalarBytes n = _ := (if_neg hone).trans ((if_neg htwo).trans (if_pos hthree))
    by_cases hlow : n < 0x1000
    · refine ⟨_, _, _, _, hbytes, .firstThree (by omega), ?_, ?_⟩
      · simp only [InRanges, hmiddle, hlast, UInt8.reduceToNat, and_true]
        omega
      · simp only [payload, hlead, hmiddle, hlast]
        omega
    by_cases hsurrogate : 0xD000 ≤ n ∧ n < 0xE000
    · refine ⟨_, _, _, _, hbytes, .noSurrogate (by omega), ?_, ?_⟩
      · simp only [InRanges, hmiddle, hlast, UInt8.reduceToNat, and_true]
        omega
      · simp only [payload, hlead, hmiddle, hlast]
        omega
    · refine ⟨_, _, _, _, hbytes, .three (by omega) (by omega) (by omega), ?_, ?_⟩
      · simp only [InRanges, hmiddle, hlast, UInt8.reduceToNat, and_true]
        omega
      · simp only [payload, hlead, hmiddle, hlast]
        omega
  · have hlead : (UInt8.ofNat (n / 262144 % 8 + 0xF0)).toNat = n / 262144 % 8 + 0xF0 :=
      toNat_ofNat_byte (by omega)
    have hbytes : scalarBytes n = _ := (if_neg hone).trans ((if_neg htwo).trans (if_neg hthree))
    by_cases hlow : n < 0x40000
    · refine ⟨_, _, _, _, hbytes, .firstFour (by omega), ?_, ?_⟩
      · simp only [InRanges, hfirst, hmiddle, hlast, UInt8.reduceToNat, and_true]
        omega
      · simp only [payload, hlead, hfirst, hmiddle, hlast]
        omega
    by_cases hhigh : n < 0x100000
    · refine ⟨_, _, _, _, hbytes, .four (by omega) (by omega), ?_, ?_⟩
      · simp only [InRanges, hfirst, hmiddle, hlast, UInt8.reduceToNat, and_true]
        omega
      · simp only [payload, hlead, hfirst, hmiddle, hlast]
        omega
    · refine ⟨_, _, _, _, hbytes, .lastFour (by omega), ?_, ?_⟩
      · simp only [InRanges, hfirst, hmiddle, hlast, UInt8.reduceToNat, and_true]
        omega
      · simp only [payload, hlead, hfirst, hmiddle, hlast]
        omega

theorem inRanges_cons_iff {range : UInt8 × UInt8} {ranges : List (UInt8 × UInt8)}
    {bytes : List UInt8} : InRanges (range :: ranges) bytes ↔ ∃ byte bytes', bytes = byte :: bytes' ∧
      (range.1.toNat ≤ byte.toNat ∧ byte.toNat ≤ range.2.toNat) ∧ InRanges ranges bytes' := by
  cases bytes with
  | nil =>
      constructor
      · intro h
        cases h
      · rintro ⟨_, _, h, _⟩
        cases h
  | cons byte bytes =>
      constructor
      · intro h
        exact ⟨byte, bytes, rfl, h⟩
      · rintro ⟨_, _, h, hrange⟩
        cases h
        exact hrange

theorem inRanges_nil_iff {bytes : List UInt8} : InRanges [] bytes ↔ bytes = [] := by
  cases bytes with
  | nil => exact ⟨fun _ => rfl, fun _ => trivial⟩
  | cons byte bytes =>
      constructor
      · intro h
        cases h
      · intro h
        cases h

theorem scalarBytes_three {a b c : UInt8} {n : Nat} (ha : 0xE0 ≤ a.toNat ∧ a.toNat ≤ 0xEF)
    (hb : 0x80 ≤ b.toNat ∧ b.toNat ≤ 0xBF) (hc : 0x80 ≤ c.toNat ∧ c.toNat ≤ 0xBF)
    (hn : (a.toNat % 16 * 64 + b.toNat % 64) * 64 + c.toNat % 64 = n) (hlow : 0x800 ≤ n) :
    scalarBytes n = [a, b, c] := by
  have hfirst : UInt8.ofNat (n / 4096 % 16 + 0xE0) = a := ofNat_of_toNat (by omega)
  have hsecond : UInt8.ofNat (n / 64 % 64 + 0x80) = b := ofNat_of_toNat (by omega)
  have hthird : UInt8.ofNat (n % 64 + 0x80) = c := ofNat_of_toNat (by omega)
  rw [scalarBytes, if_neg (by omega), if_neg (by omega), if_pos (by omega), hfirst, hsecond, hthird]

theorem scalarBytes_four {a b c d : UInt8} {n : Nat} (ha : 0xF0 ≤ a.toNat ∧ a.toNat ≤ 0xF7)
    (hb : 0x80 ≤ b.toNat ∧ b.toNat ≤ 0xBF) (hc : 0x80 ≤ c.toNat ∧ c.toNat ≤ 0xBF)
    (hd : 0x80 ≤ d.toNat ∧ d.toNat ≤ 0xBF)
    (hn : ((a.toNat % 8 * 64 + b.toNat % 64) * 64 + c.toNat % 64) * 64 + d.toNat % 64 = n)
    (hlow : 0x10000 ≤ n) : scalarBytes n = [a, b, c, d] := by
  have hfirst : UInt8.ofNat (n / 262144 % 8 + 0xF0) = a := ofNat_of_toNat (by omega)
  have hsecond : UInt8.ofNat (n / 4096 % 64 + 0x80) = b := ofNat_of_toNat (by omega)
  have hthird : UInt8.ofNat (n / 64 % 64 + 0x80) = c := ofNat_of_toNat (by omega)
  have hfourth : UInt8.ofNat (n % 64 + 0x80) = d := ofNat_of_toNat (by omega)
  rw [scalarBytes, if_neg (by omega), if_neg (by omega), if_neg (by omega), hfirst, hsecond, hthird,
    hfourth]

/-- A lead byte and bytes in its ranges are the bytes of their payload, a scalar value. -/
theorem Lead.encoded {byte : UInt8} {code : Nat} {ranges : List (UInt8 × UInt8)}
    {bytes : List UInt8} (h : Lead byte code ranges) (hbytes : InRanges ranges bytes) :
    (payload code bytes).isValidChar ∧ scalarBytes (payload code bytes) = byte :: bytes := by
  unfold Nat.isValidChar
  cases h with
  | one h =>
      obtain rfl := inRanges_nil_iff.mp hbytes
      have hn : payload byte.toNat [] = byte.toNat := rfl
      rw [hn, scalarBytes, if_pos (by omega), UInt8.ofNat_toNat]
      exact ⟨by omega, rfl⟩
  | two h h' =>
      simp only [inRanges_cons_iff, inRanges_nil_iff] at hbytes
      obtain ⟨b, _, rfl, hb, rfl⟩ := hbytes
      simp only [UInt8.reduceToNat] at hb
      have hn : payload (byte.toNat % 32) [b] = byte.toNat % 32 * 64 + b.toNat % 64 := rfl
      have hfirst : UInt8.ofNat (payload (byte.toNat % 32) [b] / 64 % 32 + 0xC0) = byte :=
        ofNat_of_toNat (by omega)
      have hlast : UInt8.ofNat (payload (byte.toNat % 32) [b] % 64 + 0x80) = b :=
        ofNat_of_toNat (by omega)
      rw [scalarBytes, if_neg (by omega), if_pos (by omega), hfirst, hlast]
      exact ⟨by omega, rfl⟩
  | firstThree h =>
      simp only [inRanges_cons_iff, inRanges_nil_iff] at hbytes
      obtain ⟨b, _, rfl, hb, c, _, rfl, hc, rfl⟩ := hbytes
      simp only [UInt8.reduceToNat] at hb hc
      have hn : payload (byte.toNat % 16) [b, c] =
        (byte.toNat % 16 * 64 + b.toNat % 64) * 64 + c.toNat % 64 := rfl
      exact ⟨by omega, scalarBytes_three (by omega) (by omega) hc hn.symm (by omega)⟩
  | noSurrogate h =>
      simp only [inRanges_cons_iff, inRanges_nil_iff] at hbytes
      obtain ⟨b, _, rfl, hb, c, _, rfl, hc, rfl⟩ := hbytes
      simp only [UInt8.reduceToNat] at hb hc
      have hn : payload (byte.toNat % 16) [b, c] =
        (byte.toNat % 16 * 64 + b.toNat % 64) * 64 + c.toNat % 64 := rfl
      exact ⟨by omega, scalarBytes_three (by omega) (by omega) hc hn.symm (by omega)⟩
  | three h h' hne =>
      simp only [inRanges_cons_iff, inRanges_nil_iff] at hbytes
      obtain ⟨b, _, rfl, hb, c, _, rfl, hc, rfl⟩ := hbytes
      simp only [UInt8.reduceToNat] at hb hc
      have hn : payload (byte.toNat % 16) [b, c] =
        (byte.toNat % 16 * 64 + b.toNat % 64) * 64 + c.toNat % 64 := rfl
      exact ⟨by omega, scalarBytes_three (by omega) hb hc hn.symm (by omega)⟩
  | firstFour h =>
      simp only [inRanges_cons_iff, inRanges_nil_iff] at hbytes
      obtain ⟨b, _, rfl, hb, c, _, rfl, hc, d, _, rfl, hd, rfl⟩ := hbytes
      simp only [UInt8.reduceToNat] at hb hc hd
      have hn : payload (byte.toNat % 8) [b, c, d] =
        ((byte.toNat % 8 * 64 + b.toNat % 64) * 64 + c.toNat % 64) * 64 + d.toNat % 64 := rfl
      exact ⟨by omega, scalarBytes_four (by omega) (by omega) hc hd hn.symm (by omega)⟩
  | four h h' =>
      simp only [inRanges_cons_iff, inRanges_nil_iff] at hbytes
      obtain ⟨b, _, rfl, hb, c, _, rfl, hc, d, _, rfl, hd, rfl⟩ := hbytes
      simp only [UInt8.reduceToNat] at hb hc hd
      have hn : payload (byte.toNat % 8) [b, c, d] =
        ((byte.toNat % 8 * 64 + b.toNat % 64) * 64 + c.toNat % 64) * 64 + d.toNat % 64 := rfl
      exact ⟨by omega, scalarBytes_four (by omega) hb hc hd hn.symm (by omega)⟩
  | lastFour h =>
      simp only [inRanges_cons_iff, inRanges_nil_iff] at hbytes
      obtain ⟨b, _, rfl, hb, c, _, rfl, hc, d, _, rfl, hd, rfl⟩ := hbytes
      simp only [UInt8.reduceToNat] at hb hc hd
      have hn : payload (byte.toNat % 8) [b, c, d] =
        ((byte.toNat % 8 * 64 + b.toNat % 64) * 64 + c.toNat % 64) * 64 + d.toNat % 64 := rfl
      exact ⟨by omega, scalarBytes_four (by omega) (by omega) hc hd hn.symm (by omega)⟩

/-- A character is decoded from exactly the bytes that encode it. -/
theorem firstChar?_iff {byte : UInt8} {rest rest' : List UInt8} {c : Char} :
    firstChar? byte rest = some (c, rest') ↔
      byte :: rest = String.utf8EncodeChar c ++ rest' := by
  rw [firstChar?_eq_some_iff, utf8EncodeChar_eq]
  constructor
  · rintro ⟨code, ranges, bytes, hlead, hbytes, rfl, rfl⟩
    obtain ⟨hvalid, hencoded⟩ := hlead.encoded hbytes
    rw [toNat_ofNat_of_valid hvalid, hencoded]
    rfl
  · intro h
    obtain ⟨byte', code, ranges, bytes, hencoded, hlead, hbytes, hpayload⟩ :=
      scalarBytes_lead c.valid
    rw [show c.val.toNat = c.toNat from rfl] at hencoded hpayload
    rw [hencoded] at h
    cases h
    refine ⟨code, ranges, bytes, hlead, hbytes, rfl, ?_⟩
    rw [hpayload, Char.ofNat_toNat]

/-! ## Texts -/

theorem encodeUtf8_cons (c : Char) (text : List Char) :
    encodeUtf8 (c :: text) = String.utf8EncodeChar c ++ encodeUtf8 text := rfl

theorem encodeUtf8_eq_nil_iff {text : List Char} : encodeUtf8 text = [] ↔ text = [] := by
  cases text with
  | nil => exact ⟨fun _ => rfl, fun _ => rfl⟩
  | cons c text =>
      have hne := String.utf8EncodeChar_ne_nil (c := c)
      simp [encodeUtf8_cons, hne]

/-- No byte is lost. -/
theorem validFrom_append (fuel : Nat) (bytes : List UInt8) :
    encodeUtf8 (validFrom fuel bytes).1 ++ (validFrom fuel bytes).2 = bytes := by
  induction fuel generalizing bytes with
  | zero => rfl
  | succ fuel ih =>
      cases bytes with
      | nil => rfl
      | cons byte rest =>
          rw [validFrom]
          split
          · rename_i c rest' hfirst
            rw [firstChar?_iff.mp hfirst]
            show (_ ++ encodeUtf8 _) ++ _ = _
            rw [List.append_assoc, ih]
          · rfl

/-- Every text that a prefix encodes is among the characters that are decoded. -/
theorem validFrom_longest (fuel : Nat) {text : List Char} {bytes rest : List UInt8}
    (hfuel : bytes.length ≤ fuel) (h : encodeUtf8 text ++ rest = bytes) :
    text <+: (validFrom fuel bytes).1 := by
  induction text generalizing fuel bytes with
  | nil => exact List.nil_prefix
  | cons c text ih =>
      rw [encodeUtf8_cons, List.append_assoc] at h
      cases hc : String.utf8EncodeChar c with
      | nil => exact absurd hc String.utf8EncodeChar_ne_nil
      | cons byte bs =>
          have hfirst : firstChar? byte (bs ++ (encodeUtf8 text ++ rest)) =
              some (c, encodeUtf8 text ++ rest) := firstChar?_iff.mpr (by rw [hc]; rfl)
          rw [hc] at h
          subst h
          cases fuel with
          | zero => cases hfuel
          | succ fuel =>
              show _ <+: (validFrom (fuel + 1) (byte :: (bs ++ (encodeUtf8 text ++ rest)))).1
              rw [validFrom, hfirst]
              simp only [List.cons_append, List.length_cons, List.length_append] at hfuel
              refine List.cons_prefix_cons.mpr ⟨rfl, ih fuel ?_ rfl⟩
              rw [List.length_append]
              omega

theorem fromUtf8_eq (bytes : List UInt8) : fromUtf8 bytes =
    if (validFrom bytes.length bytes).2 = [] then
      .ok (String.ofList (validFrom bytes.length bytes).1)
    else .error (bytes.length - (validFrom bytes.length bytes).2.length) := by
  rw [fromUtf8]
  generalize validFrom bytes.length bytes = x
  obtain ⟨text, rest⟩ := x
  cases rest with
  | nil => rfl
  | cons byte rest => rfl

/-- A text is decoded from exactly the bytes that encode it. -/
theorem fromUtf8_ok_iff {bytes : List UInt8} {text : String} :
    fromUtf8 bytes = .ok text ↔ encodeUtf8 text.toList = bytes := by
  have happend := validFrom_append bytes.length bytes
  rw [fromUtf8_eq]
  constructor
  · intro h
    split at h
    · rename_i hrest
      cases h
      rw [hrest, List.append_nil] at happend
      rw [String.toList_ofList, happend]
    · cases h
  · intro h
    obtain ⟨more, hmore⟩ := validFrom_longest bytes.length (Nat.le_refl _)
      ((List.append_nil _).trans h)
    rw [← hmore, encodeUtf8, List.flatMap_append, List.append_assoc] at happend
    have hnone : encodeUtf8 more ++ (validFrom bytes.length bytes).2 = [] :=
      List.append_right_eq_self.mp (happend.trans h.symm)
    obtain ⟨hmore', hrest⟩ := List.append_eq_nil_iff.mp hnone
    rw [if_pos hrest, ← hmore, encodeUtf8_eq_nil_iff.mp hmore', List.append_nil,
      String.ofList_toList]

/-- An error names the length of the longest prefix that encodes a text. -/
theorem fromUtf8_error_iff {bytes : List UInt8} {n : Nat} :
    fromUtf8 bytes = .error n ↔ n < bytes.length ∧ ∃ text, encodeUtf8 text = bytes.take n ∧
      ∀ text', encodeUtf8 text' <+: bytes → text' <+: text := by
  have happend := validFrom_append bytes.length bytes
  have hlongest (text : List Char) (h : encodeUtf8 text <+: bytes) :
      text <+: (validFrom bytes.length bytes).1 := by
    obtain ⟨rest, hrest⟩ := h
    exact validFrom_longest bytes.length (Nat.le_refl _) hrest
  have hlength := congrArg List.length happend
  rw [List.length_append] at hlength
  rw [fromUtf8_eq]
  constructor
  · intro h
    split at h
    · cases h
    · rename_i hrest
      cases h
      have hpos := List.length_pos_iff.mpr hrest
      refine ⟨by omega, (validFrom bytes.length bytes).1, ?_, hlongest⟩
      have hn : bytes.length - (validFrom bytes.length bytes).2.length =
          (encodeUtf8 (validFrom bytes.length bytes).1).length := by omega
      have htake : (encodeUtf8 (validFrom bytes.length bytes).1) <+: bytes := ⟨_, happend⟩
      rw [hn]
      exact List.prefix_iff_eq_take.mp htake
  · rintro ⟨hn, text, htext, hmax⟩
    have hprefix : encodeUtf8 text <+: bytes := htext ▸ List.take_prefix n bytes
    have hle := hmax _ ⟨_, happend⟩
    have hge := hlongest text hprefix
    have heq : text = (validFrom bytes.length bytes).1 :=
      hge.eq_of_length_le hle.length_le
    have htake := congrArg List.length htext
    rw [heq, List.length_take] at htake
    have hrest : (validFrom bytes.length bytes).2 ≠ [] := List.ne_nil_of_length_pos (by omega)
    rw [if_neg hrest]
    congr 1
    omega

theorem ofNat_ne_zero {n : Nat} (hpos : 0 < n) (hlt : n < 0x100) : (0 : UInt8) ≠ UInt8.ofNat n := by
  intro h
  have htoNat := congrArg UInt8.toNat h
  rw [toNat_ofNat_byte hlt, UInt8.toNat_zero] at htoNat
  omega

/-- A text without a NUL has no zero byte. -/
theorem zero_notMem_encodeUtf8 {text : List Char} (h : Char.ofNat 0 ∉ text) :
    0 ∉ encodeUtf8 text := by
  intro hmem
  obtain ⟨c, hc, hzero⟩ := List.mem_flatMap.mp hmem
  have hpos : 0 < c.toNat := by
    refine Nat.pos_of_ne_zero fun hnul => h ?_
    rw [← hnul, Char.ofNat_toNat]
    exact hc
  have hlt : c.toNat < 0x110000 := by
    have hcases := char_cases c
    omega
  rw [utf8EncodeChar_eq, scalarBytes] at hzero
  split at hzero
  · rw [List.mem_singleton] at hzero
    exact ofNat_ne_zero hpos (by omega) hzero
  split at hzero
  · simp only [List.mem_cons, List.not_mem_nil, or_false] at hzero
    rcases hzero with hzero | hzero
    · exact ofNat_ne_zero (by omega) (by omega) hzero
    · exact ofNat_ne_zero (by omega) (by omega) hzero
  split at hzero
  · simp only [List.mem_cons, List.not_mem_nil, or_false] at hzero
    rcases hzero with hzero | hzero | hzero
    · exact ofNat_ne_zero (by omega) (by omega) hzero
    · exact ofNat_ne_zero (by omega) (by omega) hzero
    · exact ofNat_ne_zero (by omega) (by omega) hzero
  · simp only [List.mem_cons, List.not_mem_nil, or_false] at hzero
    rcases hzero with hzero | hzero | hzero | hzero
    · exact ofNat_ne_zero (by omega) (by omega) hzero
    · exact ofNat_ne_zero (by omega) (by omega) hzero
    · exact ofNat_ne_zero (by omega) (by omega) hzero
    · exact ofNat_ne_zero (by omega) (by omega) hzero

/-! ## Replacement -/

theorem continued_of_completed {ranges : List (UInt8 × UInt8)} {code : Nat} {rest : List UInt8}
    {x : Char × List UInt8} (h : completed ranges code rest = some x) :
    continued ranges code rest = x := by
  induction ranges generalizing code rest with
  | nil =>
      cases h
      rfl
  | cons range ranges ih =>
      cases rest with
      | nil => cases h
      | cons byte rest =>
          rw [completed] at h
          split at h
          · rename_i hrange
            rw [continued, if_pos hrange]
            exact ih h
          · cases h

theorem firstChar_of_some {byte : UInt8} {rest : List UInt8} {x : Char × List UInt8}
    (h : firstChar? byte rest = some x) : firstChar byte rest = x := by
  unfold firstChar? at h
  unfold firstChar
  cases hlead : leadByte byte with
  | none =>
      rw [hlead] at h
      cases h
  | some lead =>
      rw [hlead] at h
      exact continued_of_completed h

/-- A text is decoded from the bytes that encode it, and nothing in it is replaced. -/
theorem fromUtf8Lossy_encode (text : List Char) :
    fromUtf8Lossy (encodeUtf8 text) = String.ofList text := by
  have hfrom (fuel : Nat) (text : List Char) (hfuel : (encodeUtf8 text).length ≤ fuel) :
      lossyFrom fuel (encodeUtf8 text) = text := by
    induction text generalizing fuel with
    | nil => cases fuel <;> rfl
    | cons c text ih =>
        rw [encodeUtf8_cons] at hfuel ⊢
        cases hc : String.utf8EncodeChar c with
        | nil => exact absurd hc String.utf8EncodeChar_ne_nil
        | cons byte bs =>
            rw [hc] at hfuel
            have hfirst : firstChar byte (bs ++ encodeUtf8 text) = (c, encodeUtf8 text) :=
              firstChar_of_some (firstChar?_iff.mpr (by rw [hc]; rfl))
            cases fuel with
            | zero => cases hfuel
            | succ fuel =>
                simp only [List.cons_append, List.length_cons, List.length_append] at hfuel
                rw [List.cons_append, lossyFrom, hfirst, ih fuel (by omega)]
  rw [fromUtf8Lossy, hfrom _ _ (Nat.le_refl _)]

end Wire
