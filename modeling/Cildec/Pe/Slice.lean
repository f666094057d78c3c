import Cildec.Pe.Rva

/-!
# A multi-byte read, byte by byte (`src/pe.rs`)

A slice is cut from the file-backed part of the one section its first address is found in, or
from the headers. The addresses after the first are not looked up: where they are found in the
same section, they are translated to the bytes of the slice.

* `backed_of_lookup`: what stands at the bytes from an offset on;
* `rva_slice_bytes`: what a slice holds;
* `shortSection_read`: a slice that runs past the mapped part of its section.
-/

namespace Cildec

open Wire

namespace PeImage

/-- `offset` is the `i`-th file-backed byte from `rva` on, of the section that `rva` is found
in, or of the headers. -/
def Backs (image : PeImage) (rva : UInt32) (i offset : Nat) : Prop :=
  match image.sectionAt? rva with
  | some s =>
      offset = s.pointerToRawData.toNat + (rva.toNat - s.virtualAddress.toNat) + i ∧
        offset < s.pointerToRawData.toNat + s.sizeOfRawData.toNat
  | none => offset = rva.toNat + i ∧ offset < image.sizeOfHeaders.toNat

theorem virtualAddress_le {image : PeImage} {rva : UInt32} {s : Section}
    (h : image.sectionAt? rva = some s) : s.virtualAddress.toNat ≤ rva.toNat := by
  have hcontains : s.containsRva rva = true :=
    List.find?_some (p := fun s : Section => s.containsRva rva) h
  exact (of_decide_eq_true hcontains).1

/-- The bytes from the offset of an address on are those of its section or the headers, and an
address that is found where the first one is has one of them. -/
theorem backed_of_lookup {image : PeImage} {rva : UInt32} {o n i : Nat}
    (ho : image.rvaToOffset rva = some o) (hn : image.rvaAvailable rva = some n) (hi : i < n) :
    image.Backs rva i (o + i) ∧ ∀ a : UInt32, a.toNat = rva.toNat + i →
      image.sectionAt? a = image.sectionAt? rva → image.rvaToOffset a = some (o + i) := by
  unfold Backs rvaToOffset
  rw [rvaToOffset] at ho
  rw [rvaAvailable] at hn
  cases hfind : image.sectionAt? rva with
  | some s =>
      rw [hfind] at ho hn
      have hva := virtualAddress_le hfind
      have hpointer := s.pointerToRawData.toNat_lt
      have hsize := s.sizeOfRawData.toNat_lt
      have hmax : usizeMax = 2 ^ 64 - 1 := rfl
      by_cases hbacked : s.sizeOfRawData.toNat ≤ rva.toNat - s.virtualAddress.toNat
      · simp only [if_pos hbacked] at ho
        cases ho
      -- two 32-bit fields do not overflow a `usize`
      · have hadd (d : Nat) (hd : d < s.sizeOfRawData.toNat) :
            checkedAdd s.pointerToRawData.toNat d = some (s.pointerToRawData.toNat + d) :=
          if_pos (by omega)
        simp only [if_neg hbacked, hadd _ (Nat.not_le.mp hbacked), Option.bind_eq_bind,
          Option.bind_some] at ho hn
        obtain ⟨hle, ho⟩ := Option.ite_none_right_eq_some.mp ho
        cases ho
        simp only [checkedSub, if_pos hle, Option.bind_some, Option.some.injEq] at hn
        refine ⟨⟨rfl, by omega⟩, ?_⟩
        intro a ha hsame
        rw [hsame]
        have hdelta : ¬ s.sizeOfRawData.toNat ≤ a.toNat - s.virtualAddress.toNat := by omega
        simp only [if_neg hdelta, hadd _ (Nat.not_le.mp hdelta), Option.bind_eq_bind,
          Option.bind_some]
        rw [if_pos (by omega)]
        congr 1
        omega
  | none =>
      rw [hfind] at ho hn
      obtain ⟨⟨hheaders, hfile⟩, ho⟩ := Option.ite_none_right_eq_some.mp ho
      cases ho
      simp only [if_pos hheaders, checkedSub] at hn
      obtain ⟨_, hn⟩ := Option.ite_none_right_eq_some.mp hn
      cases hn
      refine ⟨⟨rfl, by omega⟩, ?_⟩
      intro a ha hsame
      rw [hsame]
      show (if _ then _ else _) = _
      rw [if_pos (by omega), ha]

/-- A slice of an accepted image holds the file-backed bytes of one section or of the headers;
every address of the range that is found in the same section is translated to its byte. -/
theorem rva_slice_bytes {bytes : List UInt8} {strictness : Strictness} {image : PeImage}
    (h : parseWith bytes strictness = .ok image) {rva : UInt32} {len : Nat} {s : List UInt8}
    (hs : image.rvaSlice rva len = .ok s) :
    ∃ o, image.rvaToOffset rva = some o ∧ s.length = len ∧ ∀ i < len,
      s[i]? = bytes[o + i]? ∧ o + i < bytes.length ∧ image.Backs rva i (o + i) ∧
        ∀ a : UInt32, a.toNat = rva.toNat + i → image.sectionAt? a = image.sectionAt? rva →
          image.rvaToOffset a = some (o + i) := by
  obtain ⟨hbytes, hsections⟩ := section_inFile h
  rw [← hbytes] at hsections ⊢
  rcases rvaSlice_eq hsections rva len with ⟨o, n, hoffset, havailable, hlen, hslice⟩ |
    ⟨_, e, hslice, _⟩
  · rw [hslice] at hs
    cases hs
    have hfile : o + n ≤ image.bytes.length := by
      rcases lookup_cases hsections rva with ⟨o', n', ho', hn', _, hle, _⟩ | ⟨ho', _⟩
      · rw [hoffset] at ho'
        rw [havailable] at hn'
        cases ho'
        cases hn'
        exact hle
      · rw [hoffset] at ho'
        cases ho'
    refine ⟨o, hoffset, ?_, ?_⟩
    · rw [List.length_take, List.length_drop]
      omega
    · intro i hi
      obtain ⟨hbacks, hsame⟩ := backed_of_lookup hoffset havailable (Nat.lt_of_lt_of_le hi hlen)
      refine ⟨?_, by omega, hbacks, hsame⟩
      rw [List.getElem?_take_of_lt hi, List.getElem?_drop]
  · rw [hslice] at hs
    cases hs

/-- A slice of `oneSection`: its third byte is the one its address is translated to. -/
theorem rva_slice_bytes_signature :
    ∃ image, parseWith oneSection .strict = .ok image ∧ image.rvaToOffset 0x2002 = some 6 := by
  have hok : (parseWith oneSection .strict).toOption.map
      (fun image => ((image.rvaSlice 0x2000 4).toOption, image.rvaToOffset 0x2000,
        decide (image.sectionAt? 0x2002 = image.sectionAt? 0x2000))) =
        some (some peSignature, some 4, true) := by
    decide +kernel
  obtain ⟨image, himage, hlookup⟩ := Option.map_eq_some_iff.mp hok
  obtain ⟨hslice, hrest⟩ := Prod.mk.inj hlookup
  obtain ⟨hoffset, hsame⟩ := Prod.mk.inj hrest
  refine ⟨image, ok_of_toOption himage, ?_⟩
  obtain ⟨o, ho, _, hbytes⟩ :=
    rva_slice_bytes (ok_of_toOption himage) (ok_of_toOption hslice)
  rw [hoffset] at ho
  cases ho
  exact (hbytes 2 (by decide)).2.2.2 0x2002 rfl (of_decide_eq_true hsame)

/-- `oneSection` with a `VirtualSize` of 8 bytes. -/
def shortSection : List UInt8 :=
  [0x4D, 0x5A, 0, 0, 0x50, 0x45, 0, 0, 0x4C, 0x01, 1, 0] ++ List.replicate 12 0 ++
    [0x60, 0, 0, 0, 0x0B, 0x01] ++ List.replicate 30 0 ++ [4, 0, 0, 0] ++ List.replicate 68 0 ++
    [8, 0, 0, 0, 0, 0x20, 0, 0, 16, 0, 0, 0, 4, 0, 0, 0] ++ List.replicate 16 0

/-- The ninth byte of a read at 0x2000 is one that no address maps. -/
theorem shortSection_read :
    ¬ ∀ bytes strictness image rva len s, parseWith bytes strictness = .ok image →
      image.rvaSlice rva len = .ok s → ∀ i < len, ∃ a : UInt32, a.toNat = rva.toNat + i ∧
        ∃ o, image.rvaToOffset a = some o ∧ s[i]? = bytes[o]? := by
  intro h
  have hok : (parseWith shortSection .strict).toOption.map
      (fun image => (decide ((image.rvaSlice 0x2000 16).toOption.isSome), image.rvaToOffset 0x2008)) =
        some (true, none) := by
    decide +kernel
  obtain ⟨image, himage, hlookup⟩ := Option.map_eq_some_iff.mp hok
  obtain ⟨hslice, hnone⟩ := Prod.mk.inj hlookup
  obtain ⟨s, hs⟩ := Option.isSome_iff_exists.mp (of_decide_eq_true hslice)
  obtain ⟨a, ha, o, ho, _⟩ :=
    h shortSection .strict image 0x2000 16 s (ok_of_toOption himage) (ok_of_toOption hs) 8
      (by decide)
  have haddress : a = 0x2008 := UInt32.toNat_inj.mp ha
  rw [haddress, hnone] at ho
  cases ho

end PeImage

end Cildec
