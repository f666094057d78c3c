import Cildec.Heaps.Tiling
import Cildec.Heaps.Tokens
import Cildec.Lib.Pieces
import Cildec.Lib.Utf8Valid

/-!
# Text in the heaps (`src/heaps.rs`)

`#Strings` holds UTF-8 and `#US` UTF-16, and neither is checked before it is asked for.

* `StringsHeap.str_exact`: which entries are text, and what the error of any other one names;
* `UserStringsHeap.text_exact`: what replacement does to a user string that is not well formed;
* `texts_decode_written`: texts that were written into the heaps are read back.
-/

namespace Cildec

open Wire

/-- The entry at `index` as UTF-8. -/
def StringsHeap.str (heap : StringsHeap) (index : Nat) : Result String := do
  let bytes ← heap.bytes index
  (fromUtf8 bytes).mapError fun validUpTo =>
    Error.new .invalidUtf8 (satAdd (satAdd heap.span.base index) validUpTo) "#Strings"

/-- The entry at `index` as UTF-8, or nothing. -/
def StringsHeap.strOpt (heap : StringsHeap) (index : Nat) : Option String :=
  (heap.str index).toOption

namespace UserString

/-- The number of UTF-16 code units. -/
def lenUtf16 (s : UserString) : Nat := s.bytes.length / 2

/-- The string has no code units. -/
def isEmpty (s : UserString) : Bool := decide (s.bytes.length < 2)

/-- The flag byte is not zero. -/
def hasSpecialChars (s : UserString) : Bool :=
  match s.flag with
  | some flag => flag != 0
  | none => false

/-- The string with unpaired surrogates replaced. -/
def toStringLossy (s : UserString) : String := String.ofList (fromUtf16Lossy s.codeUnits)

end UserString

/-! ## `#Strings` -/

namespace StringsHeap

theorem str_ok_iff {heap : StringsHeap} {index : Nat} {text : String} :
    heap.str index = .ok text ↔ heap.bytes index = .ok (encodeUtf8 text.toList) := by
  rw [str, ok_bind_iff]
  constructor
  · rintro ⟨bytes, hbytes, htext⟩
    cases hutf8 : fromUtf8 bytes with
    | error n =>
        rw [hutf8] at htext
        cases htext
    | ok text' =>
        rw [hutf8] at htext
        cases htext
        rw [hbytes, fromUtf8_ok_iff.mp hutf8]
  · intro h
    refine ⟨_, h, ?_⟩
    rw [fromUtf8_ok_iff.mpr rfl]
    rfl

theorem lossy_of_str {heap : StringsHeap} {index : Nat} {text : String}
    (h : heap.str index = .ok text) : heap.lossy index = .ok text := by
  rw [lossy, str_ok_iff.mp h]
  show Except.ok (fromUtf8Lossy _) = _
  rw [fromUtf8Lossy_encode, String.ofList_toList]

theorem str_of_bytes_error {heap : StringsHeap} {index n : Nat} {bytes : List UInt8}
    (hbytes : heap.bytes index = .ok bytes) (h : fromUtf8 bytes = .error n) :
    heap.str index =
      .error (Error.new .invalidUtf8 (satAdd (satAdd heap.span.base index) n) "#Strings") := by
  rw [str, hbytes]
  show (fromUtf8 bytes).mapError _ = _
  rw [h]
  rfl

/-- An entry is a text exactly when its bytes are the UTF-8 of it, and replacement then changes
nothing. Of any other entry that is there, the error names the first byte behind the longest text
that it starts with. -/
theorem str_exact (heap : StringsHeap) (index : Nat) :
    (∀ text, heap.str index = .ok text ↔ heap.bytes index = .ok (encodeUtf8 text.toList)) ∧
    (∀ text, heap.str index = .ok text → heap.lossy index = .ok text) ∧
    (∀ e, heap.bytes index = .error e → heap.str index = .error e) ∧
    ∀ bytes, heap.bytes index = .ok bytes → (∀ text, heap.str index ≠ .ok text) →
      ∃ n text, n < bytes.length ∧ encodeUtf8 text = bytes.take n ∧
        (∀ text', encodeUtf8 text' <+: bytes → text' <+: text) ∧
        heap.str index =
          .error (Error.new .invalidUtf8 (satAdd (satAdd heap.span.base index) n) "#Strings") := by
  refine ⟨fun text => str_ok_iff, fun text => lossy_of_str, ?_, ?_⟩
  · intro e h
    rw [str, h]
    rfl
  · intro bytes hbytes hnone
    cases h : fromUtf8 bytes with
    | ok text =>
        refine absurd (str_ok_iff.mpr ?_) (hnone text)
        rw [hbytes, fromUtf8_ok_iff.mp h]
    | error n =>
        obtain ⟨hn, text, htext, hlongest⟩ := fromUtf8_error_iff.mp h
        exact ⟨n, text, hn, htext, hlongest, str_of_bytes_error hbytes h⟩

/-- A name of one letter and half a character: the error names the half. -/
theorem str_exact_half : ∃ n text, n < 2 ∧ encodeUtf8 text = [0x41, 0xC3].take n ∧
    (∀ text', encodeUtf8 text' <+: [0x41, 0xC3] → text' <+: text) ∧
    (new [0x00, 0x41, 0xC3, 0x00] 0x10).str 1 =
      .error (Error.new .invalidUtf8 (satAdd (satAdd 0x10 1) n) "#Strings") :=
  (str_exact (new [0x00, 0x41, 0xC3, 0x00] 0x10) 1).2.2.2 [0x41, 0xC3] rfl fun _ h => by
    have hnot : ((new [0x00, 0x41, 0xC3, 0x00] 0x10).str 1).isOk = false := by decide +kernel
    rw [h] at hnot
    cases hnot

end StringsHeap

/-! ## `#US` -/

/-- The bytes of code units. -/
def unitBytes (units : List UInt16) : List UInt8 := units.flatMap fun unit => leBytes 2 unit.toNat

theorem splitUserString_even (body : List UInt8) : (splitUserString body).bytes.length % 2 = 0 := by
  unfold splitUserString
  split
  · rfl
  · simp only
    split
    · rename_i hodd
      show body.dropLast.dropLast.length % 2 = 0
      rw [List.length_dropLast]
      omega
    · rename_i heven
      show body.dropLast.length % 2 = 0
      omega

/-- The code units spell the bytes. -/
theorem UserString.unitBytes_codeUnits {s : UserString} (h : s.bytes.length % 2 = 0) :
    unitBytes s.codeUnits = s.bytes := by
  have hprefix (n : Nat) (hn : 2 * n ≤ s.bytes.length) :
      unitBytes ((List.range n).map fun i =>
        UInt16.ofNat (leNat ((s.bytes.drop (2 * i)).take 2))) = s.bytes.take (2 * n) := by
    induction n with
    | zero => rfl
    | succ n ih =>
        have hunit : ((s.bytes.drop (2 * n)).take 2).length = 2 := by
          rw [List.length_take, List.length_drop]
          omega
        have hlast : unitBytes [UInt16.ofNat (leNat ((s.bytes.drop (2 * n)).take 2))] =
            (s.bytes.drop (2 * n)).take 2 := by
          show leBytes 2 _ ++ [] = _
          rw [List.append_nil, leBytes_ofNat_leNat_u16 hunit]
        have hprev := ih (by omega)
        unfold unitBytes at hprev hlast
        rw [List.range_succ, List.map_append, List.map_singleton, unitBytes, List.flatMap_append,
          hprev, hlast, ← List.take_add]
        rfl
  have hall := hprefix (s.bytes.length / 2) (by omega)
  have hlen : 2 * (s.bytes.length / 2) = s.bytes.length := by omega
  rw [hlen, List.take_length] at hall
  exact hall

theorem UserString.length_codeUnits (s : UserString) : s.codeUnits.length = s.lenUtf16 := by
  rw [UserString.codeUnits, List.length_map, List.length_range, UserString.lenUtf16]

/-- The two bytes of a code unit tell it. -/
theorem unitBytes_injective {units units' : List UInt16} (h : unitBytes units = unitBytes units') :
    units = units' := by
  have hunits := UserString.codeUnits_of (units, 0)
  have hunits' := UserString.codeUnits_of (units', 0)
  have hsame : userStringOf (units, 0) = userStringOf (units', 0) := by
    rw [userStringOf, userStringOf]
    exact congrArg (fun bytes => UserString.mk bytes (some 0) false) h
  rw [hsame] at hunits
  exact hunits.symm.trans hunits'

theorem UserString.toStringLossy_of_units {s : UserString} {text : List Char}
    (h : s.codeUnits = encodeUtf16 text) : s.toStringLossy = String.ofList text := by
  rw [UserString.toStringLossy, h, fromUtf16Lossy_encode]

/-- The code units of an accepted entry are its bytes. Its text has as many of them, and differs
from them in surrogates only, each of which is replaced; written out again it is the entry exactly
when the entry is the UTF-16 of some text, and then it is that text. -/
theorem UserStringsHeap.text_exact {heap : UserStringsHeap} {offset : Nat} {s : UserString}
    (h : heap.getAt offset = .ok s) :
    unitBytes s.codeUnits = s.bytes ∧ s.codeUnits.length = s.lenUtf16 ∧
    List.Forall₂ Replaced s.codeUnits (encodeUtf16 s.toStringLossy.toList) ∧
    (unitBytes (encodeUtf16 s.toStringLossy.toList) = s.bytes ↔
      ∀ unit, .error unit ∉ decodeUtf16 s.codeUnits) ∧
    ∀ text : String, unitBytes (encodeUtf16 text.toList) = s.bytes → s.toStringLossy = text := by
  obtain ⟨body, _, _, rfl⟩ := UserStringsHeap.getAt_ok_iff.mp h
  have hbytes := UserString.unitBytes_codeUnits (splitUserString_even body)
  refine ⟨hbytes, UserString.length_codeUnits _, ?_, ?_, ?_⟩
  · rw [UserString.toStringLossy, String.toList_ofList]
    exact replaced_fromUtf16Lossy _
  · rw [← encode_iff]
    constructor
    · intro hsame
      exact ⟨_, unitBytes_injective (hsame.trans hbytes.symm)⟩
    · rintro ⟨text, htext⟩
      rw [UserString.toStringLossy_of_units htext.symm, String.toList_ofList, htext, hbytes]
  · intro text htext
    have hunits : encodeUtf16 text.toList = (splitUserString body).codeUnits :=
      unitBytes_injective (htext.trans hbytes.symm)
    rw [UserString.toStringLossy_of_units hunits.symm, String.ofList_toList]

/-- A letter, a surrogate that is alone and a pair: the one in the middle is replaced. -/
theorem UserStringsHeap.text_exact_clef :
    List.Forall₂ Replaced [0x41, 0xDD1E, 0xD834, 0xDD1E] (encodeUtf16 (UserString.toStringLossy
      ⟨[0x41, 0x00, 0x1E, 0xDD, 0x34, 0xD8, 0x1E, 0xDD], some 1, false⟩).toList) :=
  (@text_exact (UserStringsHeap.new [0x09, 0x41, 0x00, 0x1E, 0xDD, 0x34, 0xD8, 0x1E, 0xDD, 0x01] 0)
    0 _ rfl).2.2.1

/-! ## Written texts -/

/-- A name as it stands in `#Strings`. -/
def nameBytes (name : String) : List UInt8 := encodeUtf8 name.toList ++ [0]

/-- A text as it stands in `#US`, with its flag. -/
def literalBytes (literal : String × UInt8) : List UInt8 :=
  prefixed (userStringBody (encodeUtf16 literal.1.toList, literal.2))

theorem StringsHeap.str_written {pre post : List UInt8} {name : String} (base : Nat)
    (hnul : Char.ofNat 0 ∉ name.toList) :
    (StringsHeap.new (pre ++ (nameBytes name ++ post)) base).str pre.length = .ok name := by
  rw [str_ok_iff, StringsHeap.bytes_eq]
  · show Except.ok (upTo 0 ((pre ++ (nameBytes name ++ post)).drop pre.length)) = _
    rw [List.drop_left, nameBytes, List.append_assoc]
    show Except.ok (upTo 0 (encodeUtf8 name.toList ++ 0 :: post)) = _
    rw [upTo_append (zero_notMem_encodeUtf8 hnul)]
  · show pre.length ≤ (pre ++ _).length
    rw [List.length_append]
    exact Nat.le_add_right _ _

theorem UserString.toStringLossy_written (text : String) (flag : UInt8) :
    (userStringOf (encodeUtf16 text.toList, flag)).toStringLossy = text := by
  rw [UserString.toStringLossy_of_units (UserString.codeUnits_of _), String.ofList_toList]

theorem UserStringsHeap.getAt_written {pre post : List UInt8} {text : String} {flag : UInt8}
    (base : Nat) (hshort : 2 * (encodeUtf16 text.toList).length + 1 < 2 ^ 29) :
    (UserStringsHeap.new (pre ++ (literalBytes (text, flag) ++ post)) base).getAt pre.length =
      .ok (userStringOf (encodeUtf16 text.toList, flag)) := by
  have hbody : (userStringBody (encodeUtf16 text.toList, flag)).length < 2 ^ 29 := by
    rw [userStringBody, List.length_append, unitBytes_length, List.length_singleton, Nat.mul_comm]
    exact hshort
  rw [← splitUserString_body]
  exact UserStringsHeap.getAt_of_entry (Span.entry_prefixed base "#US" hbody)

/-- Texts that were written one after another are read where each of them starts: names up to
their NUL, and user strings behind their length, whatever stands behind them. -/
theorem texts_decode_written (base : Nat) (tail : List UInt8) :
    (∀ names : List String, (∀ name ∈ names, Char.ofNat 0 ∉ name.toList) →
      ∀ item ∈ startsFrom (fun name => (nameBytes name).length) 0 names,
        (StringsHeap.new (names.flatMap nameBytes ++ tail) base).str item.1 = .ok item.2) ∧
    (∀ literals : List (String × UInt8),
      (∀ literal ∈ literals, 2 * (encodeUtf16 literal.1.toList).length + 1 < 2 ^ 29) →
      ∀ item ∈ startsFrom (fun literal => (literalBytes literal).length) 0 literals,
        ∃ s, (UserStringsHeap.new (literals.flatMap literalBytes ++ tail) base).getAt item.1 = .ok s ∧
          s.toStringLossy = item.2.1 ∧ s.lenUtf16 = (encodeUtf16 item.2.1.toList).length ∧
          s.hasSpecialChars = (item.2.2 != 0) ∧ s.oddLength = false) := by
  refine ⟨?_, ?_⟩
  · rintro names hnul ⟨offset, name⟩ hitem
    obtain ⟨pre, post, hsplit, rfl⟩ := startsFrom_split hitem
    rw [hsplit, List.append_assoc, List.append_assoc, Nat.zero_add]
    exact StringsHeap.str_written base (hnul name (startsFrom_mem hitem))
  · rintro literals hshort ⟨offset, text, flag⟩ hitem
    obtain ⟨pre, post, hsplit, rfl⟩ := startsFrom_split hitem
    refine ⟨userStringOf (encodeUtf16 text.toList, flag), ?_,
      UserString.toStringLossy_written text flag, ?_, rfl, rfl⟩
    · rw [hsplit, List.append_assoc, List.append_assoc, Nat.zero_add]
      exact UserStringsHeap.getAt_written base (hshort _ (startsFrom_mem hitem))
    · rw [← UserString.length_codeUnits, UserString.codeUnits_of]

/-- The name "é" behind an empty one, and the literal "é" behind an empty one, with its flag. -/
theorem texts_decode_accent :
    (StringsHeap.new [0x00, 0xC3, 0xA9, 0x00, 0xFF] 0).str 1 = .ok "é" ∧
    ∃ s, (UserStringsHeap.new [0x01, 0x00, 0x03, 0xE9, 0x00, 0x01, 0xFF] 0).getAt 2 = .ok s ∧
      s.toStringLossy = "é" ∧ s.lenUtf16 = 1 ∧ s.hasSpecialChars = true ∧ s.oddLength = false := by
  have h := texts_decode_written 0 [0xFF]
  exact ⟨h.1 ["", "é"] (by decide) (1, "é") (by decide),
    h.2 [("", 0), ("é", 1)] (by decide) (2, ("é", 1)) (by decide)⟩

end Cildec
