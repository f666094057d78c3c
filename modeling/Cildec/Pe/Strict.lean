import Cildec.Lib.Narrow
import Cildec.Pe.Parse

/-!
# The container in strict mode (`src/pe.rs`)

A section that reaches past the file leaves a diagnostic, a section table that does leaves
none: permissive mode reads as many section headers as the file has room for.

* `PeImage.parseWith_up`: strict mode only rejects more;
* `PeImage.strict_accepts_iff`: when it rejects nothing that left no diagnostic.
-/

namespace Cildec

open Wire

namespace PeImage

theorem clampRawData_narrows (length headerAt : Nat) (sizeOfRawData pointerToRawData : UInt32) :
    Narrows (fun x => x.2 = []) (clampRawData .strict length headerAt sizeOfRawData pointerToRawData)
      (clampRawData .permissive length headerAt sizeOfRawData pointerToRawData) :=
  Narrows.test (List.cons_ne_nil _ _)

theorem readSectionHeader_narrows (length : Nat) :
    NarrowsM (fun x => x.2 = []) (readSectionHeader .strict length)
      (readSectionHeader .permissive length) := by
  unfold readSectionHeader
  refine NarrowsM.seq _ fun r => NarrowsM.seq _ fun _ => NarrowsM.seq _ fun _ =>
    NarrowsM.seq _ fun _ => NarrowsM.seq _ fun size => NarrowsM.seq _ fun pointer =>
    NarrowsM.seq _ fun _ => NarrowsM.seq _ fun _ => NarrowsM.seq _ fun _ =>
    NarrowsM.seq _ fun _ => NarrowsM.seq _ fun _ => ?_
  refine (NarrowsM.ofExcept (clampRawData_narrows length _ size pointer)).bind ?_
    fun _ => NarrowsM.refl _ _
  intro clamped s x s' hrun hquiet
  cases hrun
  exact hquiet

theorem sectionCount_permissive (numberOfSections remaining sectionsOffset : Nat) :
    sectionCount .permissive numberOfSections remaining sectionsOffset =
      .ok (min numberOfSections (remaining / 40)) := by
  simp [sectionCount, Strictness.isStrict]

/-- Strict mode wants room for every section header. -/
theorem sectionCount_strict_ok_iff {numberOfSections remaining sectionsOffset count : Nat} :
    sectionCount .strict numberOfSections remaining sectionsOffset = .ok count ↔
      40 * numberOfSections ≤ remaining ∧ count = numberOfSections := by
  unfold sectionCount
  by_cases hfit : 40 * numberOfSections ≤ remaining
  · have hmin : min numberOfSections (remaining / 40) = numberOfSections :=
      Nat.min_eq_left (by omega)
    simp only [hmin, ne_eq, not_true, and_false, if_false, hfit, true_and]
    constructor
    · intro h
      cases h
      rfl
    · rintro rfl
      rfl
  · have hmin : min numberOfSections (remaining / 40) ≠ numberOfSections := by omega
    simp [hmin, hfit, Strictness.isStrict]

/-- What a section table that is read consists of. -/
theorem readSectionTable_ok_iff {strictness : Strictness} {length sectionsOffset : Nat}
    {numberOfSections : UInt16} {r r' : Reader} {x : List Section × List Diagnostic} :
    (readSectionTable strictness length sectionsOffset numberOfSections).run r = .ok x r' ↔
      sectionsOffset ≤ r.data.length ∧ ∃ count sections,
        sectionCount strictness numberOfSections.toNat (r.data.length - sectionsOffset)
          sectionsOffset = .ok count ∧
        (Wire.repeatM (readSectionHeader strictness length) count).run (r.moveTo sectionsOffset) =
          .ok sections r' ∧
        x = (sections.map Prod.fst, sections.flatMap Prod.snd) := by
  constructor
  · intro hrun
    obtain ⟨_, mid, hseek, hrest⟩ := run_bind_ok_iff.mp hrun
    obtain ⟨hle, rfl⟩ := Reader.seek_ok_iff.mp hseek
    obtain ⟨_, _, hget, hrest⟩ := run_bind_ok_iff.mp hrest
    cases hget
    obtain ⟨count, _, hcount, hrest⟩ := run_bind_ok_iff.mp hrest
    obtain ⟨hcount', rfl⟩ := ofExcept_ok_iff.mp hcount
    obtain ⟨sections, last, hsections, hpure⟩ := run_bind_ok_iff.mp hrest
    cases hpure
    rw [Reader.moveTo_remaining hle] at hcount'
    exact ⟨hle, count, sections, hcount', hsections, rfl⟩
  · rintro ⟨hle, count, sections, hcount, hsections, rfl⟩
    rw [← Reader.moveTo_remaining hle] at hcount
    refine run_bind_ok_iff.mpr ⟨(), _, Reader.seek_ok_iff.mpr ⟨hle, rfl⟩, ?_⟩
    refine run_bind_ok_iff.mpr ⟨_, _, rfl, ?_⟩
    refine run_bind_ok_iff.mpr ⟨count, _, ofExcept_ok_iff.mpr ⟨hcount, rfl⟩, ?_⟩
    exact run_bind_ok_iff.mpr ⟨sections, r', hsections, rfl⟩

/-- A section table that strict mode reads is read alike in permissive mode. -/
theorem readSectionTable_up {length sectionsOffset : Nat} {numberOfSections : UInt16}
    {r r' : Reader} {x : List Section × List Diagnostic}
    (hrun : (readSectionTable .strict length sectionsOffset numberOfSections).run r = .ok x r') :
    (readSectionTable .permissive length sectionsOffset numberOfSections).run r = .ok x r' := by
  obtain ⟨hle, count, sections, hcount, hsections, rfl⟩ := readSectionTable_ok_iff.mp hrun
  obtain ⟨hfit, rfl⟩ := sectionCount_strict_ok_iff.mp hcount
  refine readSectionTable_ok_iff.mpr ⟨hle, _, sections, ?_,
    ((readSectionHeader_narrows length).repeatM _).up _ _ _ hsections, rfl⟩
  rw [sectionCount_permissive, Nat.min_eq_left (by omega)]

/-- A section table without a diagnostic is read in strict mode when it lies in the file. -/
theorem readSectionTable_strict_iff {length sectionsOffset : Nat} {numberOfSections : UInt16}
    {r r' : Reader} {x : List Section × List Diagnostic}
    (hrun : (readSectionTable .permissive length sectionsOffset numberOfSections).run r = .ok x r')
    (hquiet : x.2 = []) :
    (∃ y t, (readSectionTable .strict length sectionsOffset numberOfSections).run r = .ok y t) ↔
      sectionsOffset + 40 * numberOfSections.toNat ≤ r.data.length := by
  obtain ⟨hle, count, sections, hcount, hsections, rfl⟩ := readSectionTable_ok_iff.mp hrun
  rw [sectionCount_permissive] at hcount
  cases hcount
  constructor
  · rintro ⟨y, t, hstrict⟩
    obtain ⟨_, _, _, hcount', _⟩ := readSectionTable_ok_iff.mp hstrict
    obtain ⟨hfit, _⟩ := sectionCount_strict_ok_iff.mp hcount'
    omega
  · intro hfit
    have hmin : min numberOfSections.toNat ((r.data.length - sectionsOffset) / 40) =
        numberOfSections.toNat := Nat.min_eq_left (by omega)
    rw [hmin] at hsections
    have hgood : ∀ a ∈ sections, a.2 = [] := List.flatMap_eq_nil_iff.mp hquiet
    have hsections' := ((readSectionHeader_narrows length).repeatM _).down _ _ _ hsections hgood
    exact ⟨_, _, readSectionTable_ok_iff.mpr ⟨hle, _, sections,
      sectionCount_strict_ok_iff.mpr ⟨by omega, rfl⟩, hsections', rfl⟩⟩

/-! ## The image -/

/-- The image its parts make up. -/
def assemble (bytes : List UInt8) (strictness : Strictness) (coff : CoffHeader)
    (optional : OptionalHeader) (table : List Section × List Diagnostic) : PeImage where
  bytes := bytes
  strictness := strictness
  diagnostics := table.2
  machine := coff.machine
  characteristics := coff.characteristics
  isPe32Plus := optional.isPe32Plus
  imageBase := optional.imageBase
  sectionAlignment := optional.sectionAlignment
  fileAlignment := optional.fileAlignment
  sizeOfImage := optional.sizeOfImage
  sizeOfHeaders := optional.sizeOfHeaders
  subsystem := optional.subsystem
  dllCharacteristics := optional.dllCharacteristics
  entryPointRva := optional.entryPointRva
  dataDirectories := optional.dataDirectories
  sections := table.1

/-- What an image that is read consists of. -/
theorem parseWith_ok_iff {bytes : List UInt8} {strictness : Strictness} {image : PeImage} :
    parseWith bytes strictness = .ok image ↔
      ∃ coff r1 optional r2 table r3,
        readCoffHeader.run (Reader.new bytes 0 peContext) = .ok coff r1 ∧
        (readOptionalHeader coff.optionalStart).run r1 = .ok optional r2 ∧
        (readSectionTable strictness bytes.length
          (coff.optionalStart + coff.sizeOfOptionalHeader.toNat) coff.numberOfSections).run r2 =
            .ok table r3 ∧
        image = assemble bytes strictness coff optional table := by
  have hparse : parseWith bytes strictness = .ok image ↔ ∃ r,
      (parseImage bytes strictness).run (Reader.new bytes 0 peContext) = .ok image r := by
    unfold parseWith
    constructor
    · intro h
      split at h
      · rename_i image' r hrun
        cases h
        exact ⟨r, hrun⟩
      · cases h
    · rintro ⟨r, hrun⟩
      simp only [hrun]
  rw [hparse]
  constructor
  · rintro ⟨r, hrun⟩
    obtain ⟨coff, r1, hcoff, hrest⟩ := run_bind_ok_iff.mp hrun
    obtain ⟨optional, r2, hoptional, hrest⟩ := run_bind_ok_iff.mp hrest
    obtain ⟨table, r3, htable, hpure⟩ := run_bind_ok_iff.mp hrest
    cases hpure
    exact ⟨coff, r1, optional, r2, table, r, hcoff, hoptional, htable, rfl⟩
  · rintro ⟨coff, r1, optional, r2, table, r3, hcoff, hoptional, htable, rfl⟩
    exact ⟨r3, run_bind_ok_iff.mpr ⟨coff, r1, hcoff, run_bind_ok_iff.mpr ⟨optional, r2, hoptional,
      run_bind_ok_iff.mpr ⟨table, r3, htable, rfl⟩⟩⟩⟩

/-- An image that strict mode reads is read alike in permissive mode, up to the strictness
that is recorded. -/
theorem parseWith_up {bytes : List UInt8} {image : PeImage}
    (h : parseWith bytes .strict = .ok image) :
    parseWith bytes .permissive = .ok { image with strictness := .permissive } := by
  obtain ⟨coff, r1, optional, r2, table, r3, hcoff, hoptional, htable, rfl⟩ := parseWith_ok_iff.mp h
  exact parseWith_ok_iff.mpr ⟨coff, r1, optional, r2, table, r3, hcoff, hoptional,
    readSectionTable_up htable, rfl⟩

/-- Where the `PE` signature stands. -/
def peOffset (bytes : List UInt8) : Nat := leNat ((bytes.drop 0x3C).take 4)

/-- The number of sections the COFF header declares. -/
def numberOfSections (bytes : List UInt8) : Nat :=
  leNat ((bytes.drop (peOffset bytes + 6)).take 2)

/-- Where the section table starts. -/
def sectionsOffset (bytes : List UInt8) : Nat :=
  peOffset bytes + 24 + leNat ((bytes.drop (peOffset bytes + 20)).take 2)

/-- Where the fields of the COFF header stand in the bytes. -/
theorem readCoffHeader_places {bytes : List UInt8} {coff : CoffHeader} {r : Reader}
    (hrun : readCoffHeader.run (Reader.new bytes 0 peContext) = .ok coff r) :
    coff.numberOfSections.toNat = numberOfSections bytes ∧
      coff.optionalStart = peOffset bytes + 24 ∧
      coff.sizeOfOptionalHeader.toNat = leNat ((bytes.drop (peOffset bytes + 20)).take 2) ∧
      r.data = bytes := by
  have hdata : (Reader.new bytes 0 peContext).data = bytes := rfl
  rw [Reader.new_eq_moveTo] at hrun
  obtain ⟨dos, _, h1, hrun⟩ := run_bind_ok_iff.mp hrun
  obtain ⟨_, _, rfl⟩ := Reader.take_at (Nat.zero_le _) h1
  obtain ⟨_, _, hcheck, hrun⟩ := run_bind_ok_iff.mp hrun
  obtain ⟨_, rfl⟩ := ofExcept_ok_iff.mp hcheck
  obtain ⟨_, _, hseek, hrun⟩ := run_bind_ok_iff.mp hrun
  obtain ⟨hle, rfl⟩ := Reader.seek_ok_iff.mp hseek
  rw [Reader.moveTo_data] at hle
  rw [Reader.moveTo_moveTo] at hrun
  obtain ⟨offset, _, h2, hrun⟩ := run_bind_ok_iff.mp hrun
  obtain ⟨_, hoffset, rfl⟩ := Reader.u32_at hle h2
  obtain ⟨_, _, hseek', hrun⟩ := run_bind_ok_iff.mp hrun
  obtain ⟨hle0, rfl⟩ := Reader.seek_ok_iff.mp hseek'
  rw [Reader.moveTo_data] at hle0
  rw [Reader.moveTo_moveTo] at hrun
  obtain ⟨pe, _, h3, hrun⟩ := run_bind_ok_iff.mp hrun
  obtain ⟨hle1, _, rfl⟩ := Reader.take_at hle0 h3
  obtain ⟨_, _, hcheck', hrun⟩ := run_bind_ok_iff.mp hrun
  obtain ⟨_, rfl⟩ := ofExcept_ok_iff.mp hcheck'
  obtain ⟨_, _, h4, hrun⟩ := run_bind_ok_iff.mp hrun
  obtain ⟨hle2, _, rfl⟩ := Reader.u16_at hle1 h4
  obtain ⟨count, _, h5, hrun⟩ := run_bind_ok_iff.mp hrun
  obtain ⟨hle3, hcount, rfl⟩ := Reader.u16_at hle2 h5
  obtain ⟨_, _, h6, hrun⟩ := run_bind_ok_iff.mp hrun
  obtain ⟨hle4, _, rfl⟩ := Reader.u32_at hle3 h6
  obtain ⟨_, _, h7, hrun⟩ := run_bind_ok_iff.mp hrun
  obtain ⟨hle5, _, rfl⟩ := Reader.u32_at hle4 h7
  obtain ⟨_, _, h8, hrun⟩ := run_bind_ok_iff.mp hrun
  obtain ⟨hle6, _, rfl⟩ := Reader.u32_at hle5 h8
  obtain ⟨size, _, h9, hrun⟩ := run_bind_ok_iff.mp hrun
  obtain ⟨hle7, hsize, rfl⟩ := Reader.u16_at hle6 h9
  obtain ⟨_, _, h10, hrun⟩ := run_bind_ok_iff.mp hrun
  obtain ⟨hle8, _, rfl⟩ := Reader.u16_at hle7 h10
  obtain ⟨_, _, hget, hpure⟩ := run_bind_ok_iff.mp hrun
  cases hget
  cases hpure
  rw [hdata] at hoffset hcount hsize
  have hpe : offset.toNat = peOffset bytes := hoffset
  refine ⟨?_, ?_, ?_, rfl⟩
  · rw [hcount, numberOfSections, ← hpe]
  · show (Reader.moveTo _ _).pos = _
    rw [Reader.moveTo_pos hle8, ← hpe]
  · rw [hsize, ← hpe]

/-- The COFF header is read from its place in the bytes. -/
theorem readCoffHeader_ok {bytes : List UInt8} {coff : CoffHeader} {r : Reader}
    (hrun : readCoffHeader.run (Reader.new bytes 0 peContext) = .ok coff r) :
    coff.numberOfSections.toNat = numberOfSections bytes ∧
      coff.optionalStart + coff.sizeOfOptionalHeader.toNat = sectionsOffset bytes ∧
      r.data = bytes := by
  obtain ⟨hcount, hstart, hsize, hdata⟩ := readCoffHeader_places hrun
  refine ⟨hcount, ?_, hdata⟩
  rw [hstart, hsize, sectionsOffset]

theorem keepsData_readImageBase (plus : Bool) (optionalStart : Nat) :
    Reader.KeepsData (readImageBase plus optionalStart) := by
  unfold readImageBase
  split
  · exact (Reader.keepsData_seek _).bind fun _ => Reader.keepsData_u64
  · exact (Reader.keepsData_seek _).bind fun _ => Reader.keepsData_u32.bind fun _ =>
      Reader.KeepsData.pure _

/-- The optional header moves the cursor only. -/
theorem readOptionalHeader_data {optionalStart : Nat} {r r' : Reader} {optional : OptionalHeader}
    (hrun : (readOptionalHeader optionalStart).run r = .ok optional r') : r'.data = r.data := by
  have hdirectory : Reader.KeepsData readDirectory :=
    Reader.keepsData_u32.bind fun _ => Reader.keepsData_u32.bind fun _ => Reader.KeepsData.pure _
  have hkeeps : Reader.KeepsData (readOptionalHeader optionalStart) :=
    Reader.keepsData_u16.bind fun _ => (Reader.KeepsData.ofExcept _).bind fun plus =>
      (Reader.keepsData_seek _).bind fun _ => Reader.keepsData_u32.bind fun _ =>
      (keepsData_readImageBase plus _).bind fun _ => Reader.keepsData_u32.bind fun _ =>
      Reader.keepsData_u32.bind fun _ => (Reader.keepsData_seek _).bind fun _ =>
      Reader.keepsData_u32.bind fun _ => Reader.keepsData_u32.bind fun _ =>
      (Reader.keepsData_seek _).bind fun _ => Reader.keepsData_u16.bind fun _ =>
      Reader.keepsData_u16.bind fun _ => (Reader.keepsData_seek _).bind fun _ =>
      Reader.keepsData_u32.bind fun _ => Reader.KeepsData.get_bind fun _ =>
      (hdirectory.repeatM _).bind fun _ => Reader.KeepsData.pure _
  exact hkeeps r optional r' hrun

/-- Where strict mode reads an image that permissive mode reads without a diagnostic: the
section table lies in the file. -/
theorem strict_accepts_iff {bytes : List UInt8} {image : PeImage}
    (hok : parseWith bytes .permissive = .ok image) (hquiet : image.diagnostics = []) :
    (∃ image', parseWith bytes .strict = .ok image') ↔
      sectionsOffset bytes + 40 * numberOfSections bytes ≤ bytes.length := by
  obtain ⟨coff, r1, optional, r2, table, r3, hcoff, hoptional, htable, rfl⟩ :=
    parseWith_ok_iff.mp hok
  obtain ⟨hcount, hoffset, hdata⟩ := readCoffHeader_ok hcoff
  have hiff := readSectionTable_strict_iff htable hquiet
  rw [readOptionalHeader_data hoptional, hdata, hcount] at hiff
  rw [← hoffset, ← hiff]
  constructor
  · rintro ⟨image', hstrict⟩
    obtain ⟨coff', s1, optional', s2, table', s3, hcoff', hoptional', htable', _⟩ :=
      parseWith_ok_iff.mp hstrict
    rw [hcoff] at hcoff'
    cases hcoff'
    rw [hoptional] at hoptional'
    cases hoptional'
    exact ⟨table', s3, htable'⟩
  · rintro ⟨table', s3, htable'⟩
    exact ⟨_, parseWith_ok_iff.mpr
      ⟨coff, r1, optional, r2, table', s3, hcoff, hoptional, htable', rfl⟩⟩

end PeImage

end Cildec
