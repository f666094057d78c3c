import Cildec.Lib.Utf8
import Mathlib.Data.List.Forall2

/-!
# UTF-16

`char::decode_utf16`: a code unit that is no surrogate is its character, a high surrogate and
the low one behind it are one character, and any other surrogate is an error that holds it.

Decoding loses nothing: the items spell the code units they were decoded from
(`spell_decodeUtf16`). What was encoded is decoded, whatever follows it (`decodeUtf16_encode`).
-/

namespace Wire

/-! ## Code units -/

/-- The first of a surrogate pair. -/
def IsHigh (unit : UInt16) : Prop := 0xD800 ≤ unit.toNat ∧ unit.toNat < 0xDC00

/-- The second of a surrogate pair. -/
def IsLow (unit : UInt16) : Prop := 0xDC00 ≤ unit.toNat ∧ unit.toNat < 0xE000

instance (unit : UInt16) : Decidable (IsHigh unit) := inferInstanceAs (Decidable (_ ∧ _))

instance (unit : UInt16) : Decidable (IsLow unit) := inferInstanceAs (Decidable (_ ∧ _))

/-- The character of a surrogate pair. -/
def pairChar (high low : UInt16) : Char :=
  Char.ofNat (0x10000 + (high.toNat - 0xD800) * 0x400 + (low.toNat - 0xDC00))

/-- The characters of a list of code units; a surrogate outside a pair is an error. -/
def decodeUtf16 : List UInt16 → List (Except UInt16 Char)
  | [] => []
  | [unit] => [if IsHigh unit ∨ IsLow unit then .error unit else .ok (Char.ofNat unit.toNat)]
  | unit :: next :: rest =>
      if IsHigh unit ∧ IsLow next then .ok (pairChar unit next) :: decodeUtf16 rest
      else if IsHigh unit ∨ IsLow unit then .error unit :: decodeUtf16 (next :: rest)
      else .ok (Char.ofNat unit.toNat) :: decodeUtf16 (next :: rest)

/-- `char::encode_utf16`. -/
def charUnits (c : Char) : List UInt16 :=
  if c.toNat < 0x10000 then [UInt16.ofNat c.toNat]
  else [UInt16.ofNat (0xD800 + (c.toNat - 0x10000) / 0x400),
    UInt16.ofNat (0xDC00 + (c.toNat - 0x10000) % 0x400)]

/-- The code units of a text. -/
def encodeUtf16 (text : List Char) : List UInt16 := text.flatMap charUnits

/-- The code units of an item. -/
def itemUnits : Except UInt16 Char → List UInt16
  | .ok c => charUnits c
  | .error unit => [unit]

/-- The code units that items spell. -/
def spell (items : List (Except UInt16 Char)) : List UInt16 := items.flatMap itemUnits

/-! ## Characters -/

theorem char_cases (c : Char) :
    c.toNat < 0xD800 ∨ (0xE000 ≤ c.toNat ∧ c.toNat < 0x10000) ∨
      (0x10000 ≤ c.toNat ∧ c.toNat < 0x110000) := by
  have hvalid : c.toNat < 0xD800 ∨ (0xDFFF < c.toNat ∧ c.toNat < 0x110000) := c.valid
  omega

theorem toNat_ofNat_of_valid {n : Nat} (h : n.isValidChar) : (Char.ofNat n).toNat = n := by
  rw [Char.ofNat, dif_pos h]
  rfl

/-- A character is one code unit that is no surrogate, or a pair of them. -/
theorem charUnits_cases (c : Char) :
    (∃ unit, charUnits c = [unit] ∧ ¬ IsHigh unit ∧ ¬ IsLow unit ∧ Char.ofNat unit.toNat = c) ∨
    (∃ high low, charUnits c = [high, low] ∧ IsHigh high ∧ IsLow low ∧ pairChar high low = c) := by
  by_cases hsmall : c.toNat < 0x10000
  · have hunit : (UInt16.ofNat c.toNat).toNat = c.toNat := UInt16.toNat_ofNat_of_lt' hsmall
    have hcases := char_cases c
    refine .inl ⟨UInt16.ofNat c.toNat, if_pos hsmall, ?_, ?_, ?_⟩
    · rw [IsHigh, hunit]
      omega
    · rw [IsLow, hunit]
      omega
    · rw [hunit, Char.ofNat_toNat]
  · have hcases := char_cases c
    have hdiv : (c.toNat - 0x10000) / 0x400 < 0x400 := by omega
    have hmod : (c.toNat - 0x10000) % 0x400 < 0x400 := Nat.mod_lt _ (by decide)
    have hhigh : (UInt16.ofNat (0xD800 + (c.toNat - 0x10000) / 0x400)).toNat =
        0xD800 + (c.toNat - 0x10000) / 0x400 := UInt16.toNat_ofNat_of_lt' (by
          show _ < 0x10000
          omega)
    have hlow : (UInt16.ofNat (0xDC00 + (c.toNat - 0x10000) % 0x400)).toNat =
        0xDC00 + (c.toNat - 0x10000) % 0x400 := UInt16.toNat_ofNat_of_lt' (by
          show _ < 0x10000
          omega)
    refine .inr ⟨_, _, if_neg hsmall, ?_, ?_, ?_⟩
    · rw [IsHigh, hhigh]
      omega
    · rw [IsLow, hlow]
      omega
    · have hsum : 0x10000 + (0xD800 + (c.toNat - 0x10000) / 0x400 - 0xD800) * 0x400 +
          (0xDC00 + (c.toNat - 0x10000) % 0x400 - 0xDC00) = c.toNat := by
        omega
      rw [pairChar, hhigh, hlow, hsum, Char.ofNat_toNat]

/-- A code unit that is no surrogate is what its character is encoded as. -/
theorem charUnits_ofNat {unit : UInt16} (hhigh : ¬ IsHigh unit) (hlow : ¬ IsLow unit) :
    charUnits (Char.ofNat unit.toNat) = [unit] := by
  have hlt := unit.toNat_lt
  have hvalid : unit.toNat.isValidChar := by
    unfold IsHigh at hhigh
    unfold IsLow at hlow
    unfold Nat.isValidChar
    omega
  have hchar : (Char.ofNat unit.toNat).toNat = unit.toNat := toNat_ofNat_of_valid hvalid
  rw [charUnits, hchar, if_pos (by omega), UInt16.ofNat_toNat]

/-- A surrogate pair is what its character is encoded as. -/
theorem charUnits_pairChar {high low : UInt16} (hhigh : IsHigh high) (hlow : IsLow low) :
    charUnits (pairChar high low) = [high, low] := by
  obtain ⟨hhigh, hhigh'⟩ := hhigh
  obtain ⟨hlow, hlow'⟩ := hlow
  let n := 0x10000 + (high.toNat - 0xD800) * 0x400 + (low.toNat - 0xDC00)
  have hvalid : n.isValidChar := by
    unfold Nat.isValidChar
    omega
  have hchar : (pairChar high low).toNat = n := toNat_ofNat_of_valid hvalid
  have hdiv : 0xD800 + (n - 0x10000) / 0x400 = high.toNat := by omega
  have hmod : 0xDC00 + (n - 0x10000) % 0x400 = low.toNat := by omega
  rw [charUnits, hchar, if_neg (by omega), hdiv, hmod, UInt16.ofNat_toNat, UInt16.ofNat_toNat]

/-! ## Decoding and encoding -/

theorem decodeUtf16_cons {unit : UInt16} (hhigh : ¬ IsHigh unit) (hlow : ¬ IsLow unit)
    (rest : List UInt16) :
    decodeUtf16 (unit :: rest) = .ok (Char.ofNat unit.toNat) :: decodeUtf16 rest := by
  cases rest with
  | nil => simp [decodeUtf16, hhigh, hlow]
  | cons next rest => simp [decodeUtf16, hhigh, hlow]

theorem decodeUtf16_pair {high low : UInt16} (hhigh : IsHigh high) (hlow : IsLow low)
    (rest : List UInt16) :
    decodeUtf16 (high :: low :: rest) = .ok (pairChar high low) :: decodeUtf16 rest := by
  simp [decodeUtf16, hhigh, hlow]

theorem decodeUtf16_char (c : Char) (rest : List UInt16) :
    decodeUtf16 (charUnits c ++ rest) = .ok c :: decodeUtf16 rest := by
  rcases charUnits_cases c with ⟨unit, hunits, hhigh, hlow, rfl⟩ | ⟨high, low, hunits, hhigh, hlow, rfl⟩
  · rw [hunits]
    exact decodeUtf16_cons hhigh hlow rest
  · rw [hunits]
    exact decodeUtf16_pair hhigh hlow rest

/-- An encoded text is decoded, whatever follows it. -/
theorem decodeUtf16_encode (text : List Char) (rest : List UInt16) :
    decodeUtf16 (encodeUtf16 text ++ rest) = text.map .ok ++ decodeUtf16 rest := by
  induction text with
  | nil => rfl
  | cons c text ih =>
      show decodeUtf16 (charUnits c ++ encodeUtf16 text ++ rest) = _
      rw [List.append_assoc, decodeUtf16_char, ih]
      rfl

/-- Decoding loses nothing. -/
theorem spell_decodeUtf16 (units : List UInt16) : spell (decodeUtf16 units) = units := by
  induction units using decodeUtf16.induct with
  | case1 => rfl
  | case2 unit =>
      by_cases hunit : IsHigh unit ∨ IsLow unit
      · rw [decodeUtf16, if_pos hunit]
        rfl
      · obtain ⟨hhigh, hlow⟩ := not_or.mp hunit
        rw [decodeUtf16, if_neg hunit]
        show charUnits _ ++ [] = _
        rw [charUnits_ofNat hhigh hlow]
        rfl
  | case3 unit next rest hpair ih =>
      rw [decodeUtf16, if_pos hpair]
      show charUnits _ ++ spell (decodeUtf16 rest) = _
      rw [charUnits_pairChar hpair.1 hpair.2, ih]
      rfl
  | case4 unit next rest hpair hunit ih =>
      rw [decodeUtf16, if_neg hpair, if_pos hunit]
      show unit :: spell (decodeUtf16 (next :: rest)) = _
      rw [ih]
  | case5 unit next rest hpair hunit ih =>
      obtain ⟨hhigh, hlow⟩ := not_or.mp hunit
      rw [decodeUtf16, if_neg hpair, if_neg hunit]
      show charUnits _ ++ spell (decodeUtf16 (next :: rest)) = _
      rw [charUnits_ofNat hhigh hlow, ih]
      rfl

/-- An error holds a surrogate. -/
theorem surrogate_of_error {units : List UInt16} {unit : UInt16}
    (h : .error unit ∈ decodeUtf16 units) : IsHigh unit ∨ IsLow unit := by
  induction units using decodeUtf16.induct with
  | case1 => cases h
  | case2 first =>
      by_cases hfirst : IsHigh first ∨ IsLow first
      · rw [decodeUtf16, if_pos hfirst] at h
        cases List.mem_singleton.mp h
        exact hfirst
      · rw [decodeUtf16, if_neg hfirst] at h
        cases List.mem_singleton.mp h
  | case3 first next rest hpair ih =>
      rw [decodeUtf16, if_pos hpair] at h
      rcases List.mem_cons.mp h with h | h
      · cases h
      · exact ih h
  | case4 first next rest hpair hfirst ih =>
      rw [decodeUtf16, if_neg hpair, if_pos hfirst] at h
      rcases List.mem_cons.mp h with h | h
      · cases h
        exact hfirst
      · exact ih h
  | case5 first next rest hpair hfirst ih =>
      rw [decodeUtf16, if_neg hpair, if_neg hfirst] at h
      rcases List.mem_cons.mp h with h | h
      · cases h
      · exact ih h

/-! ## Replacement -/

/-- An item with U+FFFD in place of an error. -/
def orReplacement : Except UInt16 Char → Char
  | .ok c => c
  | .error _ => replacementChar

/-- `char::decode_utf16` with U+FFFD in place of every error. -/
def fromUtf16Lossy (units : List UInt16) : List Char := (decodeUtf16 units).map orReplacement

theorem fromUtf16Lossy_encode (text : List Char) : fromUtf16Lossy (encodeUtf16 text) = text := by
  have hdecode := decodeUtf16_encode text []
  rw [List.append_nil] at hdecode
  rw [fromUtf16Lossy, hdecode]
  simp [decodeUtf16, Function.comp_def, orReplacement]

/-- Code units are a text when no surrogate among them is outside a pair. -/
theorem encode_iff {units : List UInt16} :
    (∃ text, encodeUtf16 text = units) ↔ ∀ unit, .error unit ∉ decodeUtf16 units := by
  constructor
  · rintro ⟨text, rfl⟩ unit hmem
    have hdecode := decodeUtf16_encode text []
    rw [List.append_nil] at hdecode
    rw [hdecode] at hmem
    simp [decodeUtf16] at hmem
  · intro h
    refine ⟨fromUtf16Lossy units, ?_⟩
    have hspell := spell_decodeUtf16 units
    rw [encodeUtf16, fromUtf16Lossy, List.flatMap_map]
    refine Eq.trans ?_ hspell
    refine List.flatMap_congr fun item hitem => ?_
    cases item with
    | ok c => rfl
    | error unit => exact absurd hitem (h unit)

/-- What replacement does to a code unit: it keeps it, or puts U+FFFD in place of a surrogate. -/
def Replaced (unit unit' : UInt16) : Prop :=
  unit' = unit ∨ (IsHigh unit ∨ IsLow unit) ∧ unit' = 0xFFFD

/-- Replacement works code unit by code unit: a text that was decoded with it is as long as the
code units, and differs from them in surrogates only. -/
theorem replaced_fromUtf16Lossy (units : List UInt16) :
    List.Forall₂ Replaced units (encodeUtf16 (fromUtf16Lossy units)) := by
  have hitems (items : List (Except UInt16 Char))
      (h : ∀ unit, .error unit ∈ items → IsHigh unit ∨ IsLow unit) :
      List.Forall₂ Replaced (spell items) (encodeUtf16 (items.map orReplacement)) := by
    induction items with
    | nil => exact .nil
    | cons item items ih =>
        have hrest := ih fun unit hmem => h unit (List.mem_cons_of_mem _ hmem)
        cases item with
        | ok c =>
            have hsame : List.Forall₂ Replaced (charUnits c) (charUnits c) :=
              List.forall₂_same.mpr fun _ _ => .inl rfl
            exact List.rel_append hsame hrest
        | error unit =>
            have hunits : charUnits replacementChar = [0xFFFD] := by decide
            show List.Forall₂ Replaced (unit :: spell items) (charUnits replacementChar ++ _)
            rw [hunits]
            exact .cons (.inr ⟨h unit List.mem_cons_self, rfl⟩) hrest
  have h := hitems (decodeUtf16 units) fun _ hmem => surrogate_of_error hmem
  rwa [spell_decodeUtf16] at h

/-- A clef in two surrogates between two that are alone. -/
example : decodeUtf16 [0xDC00, 0xD834, 0xDD1E, 0xD834] =
    [.error 0xDC00, .ok (Char.ofNat 0x1D11E), .error 0xD834] := by decide

end Wire
