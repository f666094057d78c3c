import Cildec.Pe.Strict

/-!
# RVA translation (`src/pe.rs`)

An RVA is looked up in the first section whose mapped range holds it, and in the headers
when there is none. Raw ranges are clamped to the file as the section table is read
(`Section.InFile`), which is what keeps the translation inside it.

* `section_inFile`: the sections of an accepted image lie in the file;
* `lookup_cases`: the offset and the number of bytes from it on, or neither;
* `rva_lookups_agree`: the three entry points agree.
-/

namespace Cildec

open Wire

namespace Section

/-- The number of mapped bytes: some linkers leave `VirtualSize` at 0. -/
def mappedSize (s : Section) : UInt32 := if s.virtualSize = 0 then s.sizeOfRawData else s.virtualSize

/-- `rva` falls inside the mapped range. -/
def containsRva (s : Section) (rva : UInt32) : Bool :=
  let stop := satAdd32 s.virtualAddress.toNat s.mappedSize.toNat
  decide (s.virtualAddress.toNat ≤ rva.toNat ∧ rva.toNat < stop)

/-- The raw range lies in a file of `length` bytes. -/
def InFile (s : Section) (length : Nat) : Prop :=
  s.sizeOfRawData = 0 ∨ s.pointerToRawData.toNat + s.sizeOfRawData.toNat ≤ length

end Section

namespace PeImage

/-- The first section that maps `rva`. -/
def sectionAt? (image : PeImage) (rva : UInt32) : Option Section :=
  image.sections.find? (·.containsRva rva)

/-- Translates an RVA to a file offset. -/
def rvaToOffset (image : PeImage) (rva : UInt32) : Option Nat :=
  match image.sectionAt? rva with
  | some s => do
      let delta := rva.toNat - s.virtualAddress.toNat
      -- mapped but not backed by file bytes
      if s.sizeOfRawData.toNat ≤ delta then none
      else
        let offset ← checkedAdd s.pointerToRawData.toNat delta
        if offset ≤ image.bytes.length then some offset else none
  | none =>
      if rva.toNat < image.sizeOfHeaders.toNat ∧ rva.toNat < image.bytes.length then some rva.toNat
      else none

/-- The number of file-backed bytes from `rva` to the end of its section. -/
def rvaAvailable (image : PeImage) (rva : UInt32) : Option Nat :=
  match image.sectionAt? rva with
  | some s => do
      let delta := rva.toNat - s.virtualAddress.toNat
      if s.sizeOfRawData.toNat ≤ delta then none
      else
        let inSection := s.sizeOfRawData.toNat - delta
        let fileStart ← checkedAdd s.pointerToRawData.toNat delta
        let inFile ← checkedSub image.bytes.length fileStart
        some (min inSection inFile)
  | none =>
      if rva.toNat < image.sizeOfHeaders.toNat then
        checkedSub (min image.sizeOfHeaders.toNat image.bytes.length) rva.toNat
      else none

/-- `CTX` of a translation. -/
def rvaContext : String := "RVA"

/-- The `len` bytes that start at `rva`. -/
def rvaSlice (image : PeImage) (rva : UInt32) (len : Nat) : Result (List UInt8) :=
  match image.rvaToOffset rva with
  | none => .error (Error.detached .outOfRange rvaContext)
  | some offset =>
      let available := (image.rvaAvailable rva).getD 0
      if available < len then .error (Error.new .outOfRange offset rvaContext)
      else
        match checkedAdd offset len with
        | none => .error (Error.new .outOfRange offset rvaContext)
        | some stop =>
            match slice? image.bytes offset stop with
            | some bytes => .ok bytes
            | none => .error (Error.new .truncated offset rvaContext)

/-- Every byte from `rva` to the end of its section. -/
def rvaRest (image : PeImage) (rva : UInt32) : Result (List UInt8) :=
  match image.rvaAvailable rva with
  | none => .error (Error.detached .outOfRange rvaContext)
  | some len => image.rvaSlice rva len

/-! ## The sections of an accepted image -/

theorem clampRawData_inFile {strictness : Strictness} {length headerAt : Nat}
    {size pointer : UInt32} {x : UInt32 × List Diagnostic}
    (h : clampRawData strictness length headerAt size pointer = .ok x) :
    x.1 = 0 ∨ pointer.toNat + x.1.toNat ≤ length := by
  rw [clampRawData] at h
  by_cases hlong : length < pointer.toNat + size.toNat
  · simp only [if_pos hlong] at h
    cases strictness with
    | strict => cases h
    | permissive =>
        cases h
        by_cases hinside : pointer.toNat ≤ length
        · right
          have hlt : min (length - pointer.toNat) (2 ^ 32 - 1) < UInt32.size := by
            rw [show UInt32.size = 2 ^ 32 from rfl]
            omega
          show pointer.toNat + (UInt32.ofNat _).toNat ≤ length
          rw [UInt32.toNat_ofNat_of_lt' hlt]
          omega
        · left
          rw [show length - pointer.toNat = 0 by omega]
          rfl
  · simp only [if_neg hlong] at h
    cases h
    exact .inr (Nat.le_of_not_lt hlong)

theorem readSectionHeader_inFile (strictness : Strictness) (length : Nat) :
    Returns (readSectionHeader strictness length) fun x => x.1.InFile length := by
  refine Returns.then fun r => ?_
  -- the ten fields before the clamp
  iterate 10 refine Returns.then fun _ => ?_
  refine Returns.bind (Returns.ofExcept fun x h => h) fun x h => ?_
  exact Returns.pure (clampRawData_inFile h)

/-- Every section of an accepted image lies in the file. -/
theorem section_inFile {bytes : List UInt8} {strictness : Strictness} {image : PeImage}
    (h : parseWith bytes strictness = .ok image) :
    image.bytes = bytes ∧ ∀ s ∈ image.sections, s.InFile bytes.length := by
  obtain ⟨coff, r1, optional, r2, table, r3, _, _, htable, rfl⟩ := parseWith_ok_iff.mp h
  obtain ⟨_, count, sections, _, hsections, rfl⟩ := readSectionTable_ok_iff.mp htable
  refine ⟨rfl, ?_⟩
  intro s hs
  obtain ⟨x, hx, rfl⟩ := List.mem_map.mp hs
  exact (readSectionHeader_inFile strictness bytes.length).repeatM count _ _ _ hsections x hx

/-! ## Translation -/

/-- What the walk over the sections finds for an RVA: the range of the file that is mapped at
it, if any. -/
theorem lookup_cases {image : PeImage}
    (hsections : ∀ s ∈ image.sections, s.InFile image.bytes.length) (rva : UInt32) :
    (∃ o n, image.rvaToOffset rva = some o ∧ image.rvaAvailable rva = some n ∧ 1 ≤ n ∧
      o + n ≤ image.bytes.length ∧ o + n ≤ usizeMax) ∨
    (image.rvaToOffset rva = none ∧
      (image.rvaAvailable rva = none ∨ image.rvaAvailable rva = some 0)) := by
  have hmax : usizeMax = 2 ^ 64 - 1 := rfl
  rw [rvaToOffset, rvaAvailable]
  cases hfind : image.sectionAt? rva with
  | some s =>
      have hin := hsections s (List.mem_of_find?_eq_some hfind)
      have hpointer := s.pointerToRawData.toNat_lt
      have hsize := s.sizeOfRawData.toNat_lt
      have hrva := rva.toNat_lt
      -- the first section that maps the address decides, also where it has no bytes for it
      by_cases hbacked : s.sizeOfRawData.toNat ≤ rva.toNat - s.virtualAddress.toNat
      · right
        simp only [if_pos hbacked]
        exact ⟨trivial, .inl trivial⟩
      · left
        have hin' : s.pointerToRawData.toNat + s.sizeOfRawData.toNat ≤ image.bytes.length := by
          rcases hin with hzero | hle
          · rw [hzero] at hbacked
            exact absurd (Nat.zero_le _) hbacked
          · exact hle
        have hadd : checkedAdd s.pointerToRawData.toNat (rva.toNat - s.virtualAddress.toNat) =
            some (s.pointerToRawData.toNat + (rva.toNat - s.virtualAddress.toNat)) :=
          if_pos (by omega)
        have hsub : checkedSub image.bytes.length
            (s.pointerToRawData.toNat + (rva.toNat - s.virtualAddress.toNat)) = some
              (image.bytes.length - (s.pointerToRawData.toNat +
                (rva.toNat - s.virtualAddress.toNat))) := if_pos (by omega)
        simp only [if_neg hbacked, hadd, hsub, Option.bind_eq_bind, Option.bind_some]
        refine ⟨_, _, if_pos (by omega), rfl, ?_, ?_, ?_⟩ <;> omega
  | none =>
      have hheaders := image.sizeOfHeaders.toNat_lt
      -- outside the sections only the headers are mapped
      by_cases hmapped : rva.toNat < image.sizeOfHeaders.toNat
      · by_cases hfile : rva.toNat < image.bytes.length
        · left
          have hsub : checkedSub (min image.sizeOfHeaders.toNat image.bytes.length) rva.toNat =
              some (min image.sizeOfHeaders.toNat image.bytes.length - rva.toNat) :=
            if_pos (by omega)
          simp only [if_pos hmapped, hsub]
          refine ⟨_, _, if_pos ⟨hmapped, hfile⟩, rfl, ?_, ?_, ?_⟩ <;> omega
        · right
          refine ⟨if_neg fun h => hfile h.2, ?_⟩
          simp only [if_pos hmapped, checkedSub]
          by_cases hle : rva.toNat ≤ min image.sizeOfHeaders.toNat image.bytes.length
          · right
            rw [if_pos hle]
            congr 1
            omega
          · exact .inl (if_neg hle)
      · right
        exact ⟨if_neg fun h => hmapped h.1, .inl (if_neg hmapped)⟩

/-- A slice is read where the lookups find it, and fails out of range elsewhere. -/
theorem rvaSlice_eq {image : PeImage}
    (hsections : ∀ s ∈ image.sections, s.InFile image.bytes.length) (rva : UInt32) (len : Nat) :
    (∃ o n, image.rvaToOffset rva = some o ∧ image.rvaAvailable rva = some n ∧ len ≤ n ∧
      image.rvaSlice rva len = .ok ((image.bytes.drop o).take len)) ∨
    ((∀ o n, image.rvaToOffset rva = some o → image.rvaAvailable rva = some n → n < len) ∧
      ∃ e, image.rvaSlice rva len = .error e ∧ e.kind = .outOfRange) := by
  rcases lookup_cases hsections rva with ⟨o, n, hoffset, havailable, _, hfile, husize⟩ | ⟨hoffset, _⟩
  · by_cases hlen : n < len
    · right
      refine ⟨?_, Error.new .outOfRange o rvaContext, ?_, rfl⟩
      · intro o' n' _ hn'
        rw [havailable] at hn'
        cases hn'
        exact hlen
      · rw [rvaSlice, hoffset, havailable]
        exact if_pos hlen
    · left
      refine ⟨o, n, hoffset, havailable, by omega, ?_⟩
      have hadd : checkedAdd o len = some (o + len) := if_pos (by omega)
      have hslice : slice? image.bytes o (o + len) = some ((image.bytes.drop o).take len) :=
        slice?_of_le (by omega)
      rw [rvaSlice, hoffset, havailable]
      simp only [Option.getD_some, if_neg hlen, hadd, hslice]
  · right
    refine ⟨?_, Error.detached .outOfRange rvaContext, ?_, rfl⟩
    · intro o n ho
      rw [hoffset] at ho
      cases ho
    · rw [rvaSlice, hoffset]

/-- An RVA has an offset exactly when bytes are left for it. -/
theorem rvaToOffset_isSome_iff {image : PeImage}
    (hsections : ∀ s ∈ image.sections, s.InFile image.bytes.length) (rva : UInt32) :
    (∃ o, image.rvaToOffset rva = some o) ↔ ∃ n, image.rvaAvailable rva = some n ∧ 1 ≤ n := by
  rcases lookup_cases hsections rva with ⟨o, n, hoffset, havailable, hn, _⟩ | ⟨hoffset, hnone⟩
  · exact ⟨fun _ => ⟨n, havailable, hn⟩, fun _ => ⟨o, hoffset⟩⟩
  · constructor
    · rintro ⟨o, ho⟩
      rw [hoffset] at ho
      cases ho
    · rintro ⟨n, hn, hpos⟩
      rcases hnone with hnone | hzero
      · rw [hnone] at hn
        cases hn
      · rw [hzero] at hn
        cases hn
        omega

theorem rva_range_inFile {image : PeImage}
    (hsections : ∀ s ∈ image.sections, s.InFile image.bytes.length) {rva : UInt32} {o n : Nat}
    (ho : image.rvaToOffset rva = some o) (hn : image.rvaAvailable rva = some n) :
    o + n ≤ image.bytes.length := by
  rcases lookup_cases hsections rva with ⟨o', n', hoffset, havailable, _, hfile, _⟩ | ⟨hoffset, _⟩
  · rw [hoffset] at ho
    rw [havailable] at hn
    cases ho
    cases hn
    exact hfile
  · rw [hoffset] at ho
    cases ho

/-- A slice is as many of the bytes that are left as it asks for. -/
theorem rvaSlice_ok_iff {image : PeImage}
    (hsections : ∀ s ∈ image.sections, s.InFile image.bytes.length) (rva : UInt32) (len : Nat)
    (s : List UInt8) :
    image.rvaSlice rva len = .ok s ↔
      ∃ o n, image.rvaToOffset rva = some o ∧ image.rvaAvailable rva = some n ∧ len ≤ n ∧
        s = (image.bytes.drop o).take len := by
  rcases rvaSlice_eq hsections rva len with ⟨o, n, hoffset, havailable, hlen, hslice⟩ |
    ⟨hshort, e, hslice, _⟩
  · rw [hslice]
    constructor
    · intro hs
      cases hs
      exact ⟨o, n, hoffset, havailable, hlen, rfl⟩
    · rintro ⟨o', n', ho', _, _, rfl⟩
      rw [hoffset] at ho'
      cases ho'
      rfl
  · rw [hslice]
    constructor
    · intro hs
      cases hs
    · rintro ⟨o, n, ho, hn, hle, _⟩
      have hlt := hshort o n ho hn
      omega

theorem rvaSlice_error_kind {image : PeImage}
    (hsections : ∀ s ∈ image.sections, s.InFile image.bytes.length) {rva : UInt32} {len : Nat}
    {e : Error} (h : image.rvaSlice rva len = .error e) : e.kind = .outOfRange := by
  rcases rvaSlice_eq hsections rva len with ⟨_, _, _, _, _, hslice⟩ | ⟨_, e', hslice, hkind⟩
  · rw [hslice] at h
    cases h
  · rw [hslice] at h
    cases h
    exact hkind

/-- On an accepted image the three lookups agree: an RVA has an offset exactly when bytes are
available from it on, these lie in the file, and a slice is readable exactly when it is no
longer than they are. -/
theorem rva_lookups_agree {bytes : List UInt8} {strictness : Strictness} {image : PeImage}
    (h : parseWith bytes strictness = .ok image) (rva : UInt32) :
    ((∃ o, image.rvaToOffset rva = some o) ↔ ∃ n, image.rvaAvailable rva = some n ∧ 1 ≤ n) ∧
    (∀ o n, image.rvaToOffset rva = some o → image.rvaAvailable rva = some n →
      o + n ≤ bytes.length) ∧
    (∀ len s, image.rvaSlice rva len = .ok s ↔
      ∃ o n, image.rvaToOffset rva = some o ∧ image.rvaAvailable rva = some n ∧ len ≤ n ∧
        s = (bytes.drop o).take len) ∧
    (∀ len e, image.rvaSlice rva len = .error e → e.kind = .outOfRange) := by
  obtain ⟨hbytes, hsections⟩ := section_inFile h
  rw [← hbytes] at hsections ⊢
  refine ⟨rvaToOffset_isSome_iff hsections rva, ?_, rvaSlice_ok_iff hsections rva, ?_⟩
  · intro o n ho hn
    exact rva_range_inFile hsections ho hn
  · intro len e he
    exact rvaSlice_error_kind hsections he

/-- A PE32 image with one section: 16 bytes of the file from offset 4 on, mapped at 0x2000. -/
def oneSection : List UInt8 :=
  [0x4D, 0x5A, 0, 0, 0x50, 0x45, 0, 0, 0x4C, 0x01, 1, 0] ++ List.replicate 12 0 ++
    [0x60, 0, 0, 0, 0x0B, 0x01] ++ List.replicate 30 0 ++ [4, 0, 0, 0] ++ List.replicate 68 0 ++
    [16, 0, 0, 0, 0, 0x20, 0, 0, 16, 0, 0, 0, 4, 0, 0, 0] ++ List.replicate 16 0

/-- The `PE` signature, read at the RVA it is mapped at. -/
theorem rva_lookups_agree_signature :
    ∃ image, parseWith oneSection .strict = .ok image ∧
      image.rvaSlice 0x2000 4 = .ok peSignature := by
  have hok : (parseWith oneSection .strict).toOption.map
      (fun image => (image.rvaToOffset 0x2000, image.rvaAvailable 0x2000)) =
        some (some 4, some 16) := by
    decide +kernel
  obtain ⟨image, himage, hlookup⟩ := Option.map_eq_some_iff.mp hok
  obtain ⟨hoffset, havailable⟩ := Prod.mk.inj hlookup
  refine ⟨image, ok_of_toOption himage, ?_⟩
  exact ((rva_lookups_agree (ok_of_toOption himage) 0x2000).2.2.1 4 peSignature).mpr
    ⟨4, 16, hoffset, havailable, by decide, by decide⟩

/-- Every byte to the end of the section can be read wherever an RVA has an offset. -/
theorem rvaRest_ok_iff {bytes : List UInt8} {strictness : Strictness} {image : PeImage}
    (h : parseWith bytes strictness = .ok image) (rva : UInt32) :
    (∃ s, image.rvaRest rva = .ok s) ↔ ∃ o, image.rvaToOffset rva = some o := by
  obtain ⟨hbytes, hsections⟩ := section_inFile h
  rw [← hbytes] at hsections
  rw [rvaRest]
  rcases lookup_cases hsections rva with ⟨o, n, hoffset, havailable, _⟩ | ⟨hoffset, hnone⟩
  · rw [havailable]
    refine ⟨fun _ => ⟨o, hoffset⟩, fun _ => ?_⟩
    rcases rvaSlice_eq hsections rva n with ⟨_, _, _, _, _, hslice⟩ | ⟨hshort, _⟩
    · exact ⟨_, hslice⟩
    · exact absurd (hshort o n hoffset havailable) (Nat.lt_irrefl n)
  · constructor
    · rintro ⟨s, hs⟩
      rcases hnone with hnone | hzero
      · rw [hnone] at hs
        cases hs
      · simp only [hzero, rvaSlice, hoffset] at hs
        cases hs
    · rintro ⟨o, ho⟩
      rw [hoffset] at ho
      cases ho

end PeImage

end Cildec
