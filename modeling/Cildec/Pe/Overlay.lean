import Cildec.Body.Delimited
import Cildec.Pe.Managed
import Cildec.Pe.Pipeline
import Cildec.Reader.Extend

/-!
# Bytes behind an image (`src/pe.rs`)

A signature, an installer payload or a debugger's notes are appended to image files. The decoder
looks at the length of the file in four places: for the data directories, for the section
table, for the raw data of the sections and for RVAs in the headers. An image that is `Whole`
at these places is read alike whatever follows it, and so is everything that is decoded from it.

* `parseWith_append`: the container is read alike;
* `overlay_ignored`: so are the lookups, the CLI header, the metadata and the method bodies.
-/

namespace Cildec

open Wire

namespace PeImage

/-! ## The optional header in three parts -/

/-- The part of `readOptionalHeader` before the number of directories. -/
def readOptionalFields (optionalStart : Nat) : Read OptionalHeader := do
  let magic ← Reader.u16
  let plus ← Wire.ofExcept (isPlus magic optionalStart)
  Reader.seek (optionalStart + 16)
  let entryPointRva ← Reader.u32
  let imageBase ← readImageBase plus optionalStart
  let sectionAlignment ← Reader.u32
  let fileAlignment ← Reader.u32
  Reader.seek (optionalStart + 56)
  let sizeOfImage ← Reader.u32
  let sizeOfHeaders ← Reader.u32
  Reader.seek (optionalStart + 68)
  let subsystem ← Reader.u16
  let dllCharacteristics ← Reader.u16
  return { isPe32Plus := plus, entryPointRva, imageBase, sectionAlignment, fileAlignment,
           sizeOfImage, sizeOfHeaders, subsystem, dllCharacteristics, dataDirectories := [] }

/-- The number of directories that are declared. -/
def readDirectoryCount (optionalStart : Nat) (plus : Bool) : Read UInt32 := do
  Reader.seek (if plus then optionalStart + 108 else optionalStart + 92)
  Reader.u32

/-- The part of `readOptionalHeader` that reads the directories. -/
def readDirectories (fields : OptionalHeader) (declaredDirs : UInt32) : Read OptionalHeader := do
  let r ← get
  let dirCount := min (min declaredDirs.toNat 16) (r.remaining / 8)
  let dataDirectories ← Wire.repeatM readDirectory dirCount
  return { fields with dataDirectories }

theorem readOptionalHeader_eq (optionalStart : Nat) :
    readOptionalHeader optionalStart = readOptionalFields optionalStart >>= fun fields =>
      readDirectoryCount optionalStart fields.isPe32Plus >>= readDirectories fields := by
  simp only [readOptionalHeader, readOptionalFields, readDirectoryCount, bind_assoc, pure_bind]
  rfl

/-! ## The container -/

section Container

variable (tl : List UInt8)

theorem follows_imageBase (plus : Bool) (optionalStart : Nat) :
    Follows.Itself (Reader.extend tl) (readImageBase plus optionalStart) := by
  unfold readImageBase
  apply Follows.ite
  · exact (Reader.follows_seek tl _).seq fun _ => Reader.follows_u64 tl
  · exact (Reader.follows_seek tl _).seq fun _ => (Reader.follows_u32 tl).seq fun _ =>
      Follows.pure _ _

theorem follows_coffHeader : Follows.Itself (Reader.extend tl) readCoffHeader := by
  have hu16 := Reader.follows_u16 tl
  have hu32 := Reader.follows_u32 tl
  have hcheck (found expected : List UInt8) (offset : Nat) :
      Follows.Itself (Reader.extend tl) (Wire.ofExcept (checkSignature found expected offset)) :=
    Follows.ofExcept fun _ hok _ => hok
  refine (Reader.follows_take tl 2).seq fun _ => (hcheck _ _ _).seq fun _ =>
    (Reader.follows_seek tl _).seq fun _ => hu32.seq fun _ => (Reader.follows_seek tl _).seq fun _ =>
    (Reader.follows_take tl 4).seq fun _ => (hcheck _ _ _).seq fun _ => hu16.seq fun _ =>
    hu16.seq fun _ => hu32.seq fun _ => hu32.seq fun _ => hu32.seq fun _ => hu16.seq fun _ =>
    hu16.seq fun _ => ?_
  exact Follows.get_bind fun _ => Follows.pure _ _

theorem follows_optionalFields (optionalStart : Nat) :
    Follows.Itself (Reader.extend tl) (readOptionalFields optionalStart) := by
  have hu16 := Reader.follows_u16 tl
  have hu32 := Reader.follows_u32 tl
  have hplus (magic : UInt16) :
      Follows.Itself (Reader.extend tl) (Wire.ofExcept (isPlus magic optionalStart)) :=
    Follows.ofExcept fun _ hok _ => hok
  exact hu16.seq fun _ => (hplus _).seq fun plus => (Reader.follows_seek tl _).seq fun _ =>
    hu32.seq fun _ => (follows_imageBase tl plus optionalStart).seq fun _ => hu32.seq fun _ =>
    hu32.seq fun _ => (Reader.follows_seek tl _).seq fun _ => hu32.seq fun _ => hu32.seq fun _ =>
    (Reader.follows_seek tl _).seq fun _ => hu16.seq fun _ => hu16.seq fun _ => Follows.pure _ _

theorem follows_directoryCount (optionalStart : Nat) (plus : Bool) :
    Follows.Itself (Reader.extend tl) (readDirectoryCount optionalStart plus) :=
  (Reader.follows_seek tl _).seq fun _ => Reader.follows_u32 tl

/-- Directories that the end of the file has not cut off. -/
theorem follows_directories (fields : OptionalHeader) (declaredDirs : UInt32) :
    Follows (Reader.extend tl)
      (fun optional => optional.dataDirectories.length = min declaredDirs.toNat 16)
      (readDirectories fields declaredDirs) (readDirectories fields declaredDirs) := by
  intro r optional r' hrun hall
  obtain ⟨_, _, hget, hrun⟩ := run_bind_ok_iff.mp hrun
  cases hget
  obtain ⟨directories, _, hrun, hpure⟩ := run_bind_ok_iff.mp hrun
  cases hpure
  have hall : directories.length = min declaredDirs.toNat 16 := hall
  have hcount := Returns.repeatM_length readDirectory _ r directories r' hrun
  have hremaining : (r.extend tl).remaining = r.remaining + tl.length := by
    rw [← Reader.rest_length, Reader.rest_extend, List.length_append, Reader.rest_length]
  have hmin : min (min declaredDirs.toNat 16) ((r.extend tl).remaining / 8) =
      min (min declaredDirs.toNat 16) (r.remaining / 8) := by
    rw [hremaining]
    omega
  have hdirectory : Follows.Itself (Reader.extend tl) readDirectory :=
    (Reader.follows_u32 tl).seq fun _ => (Reader.follows_u32 tl).seq fun _ => Follows.pure _ _
  refine run_bind_ok_iff.mpr ⟨_, _, rfl, ?_⟩
  rw [hmin]
  exact run_bind_ok_iff.mpr
    ⟨_, _, hdirectory.repeatM _ r directories r' hrun fun _ _ => trivial, rfl⟩

/-- A section whose raw data the end of the file has not cut off. -/
theorem follows_sectionHeader (strictness : Strictness) (length : Nat) :
    Follows (Reader.extend tl) (fun x => x.2 = []) (readSectionHeader strictness length)
      (readSectionHeader strictness (length + tl.length)) := by
  have hu16 := Reader.follows_u16 tl
  have hu32 := Reader.follows_u32 tl
  refine Follows.get_bind fun r => (Reader.follows_take tl 8).seq fun _ => hu32.seq fun _ =>
    hu32.seq fun _ => hu32.seq fun size => hu32.seq fun pointer => hu32.seq fun _ =>
    hu32.seq fun _ => hu16.seq fun _ => hu16.seq fun _ => hu32.seq fun _ => ?_
  have hclamp : Follows (Reader.extend tl) (fun x : UInt32 × List Diagnostic => x.2 = [])
      (Wire.ofExcept (clampRawData strictness length r.absolute size pointer))
      (Wire.ofExcept (clampRawData strictness (length + tl.length) r.absolute size pointer)) := by
    refine Follows.ofExcept fun x hok hquiet => ?_
    unfold clampRawData at hok ⊢
    simp only at hok ⊢
    split at hok
    · split at hok
      · cases hok
      · cases hok
        cases hquiet
    · rw [if_neg (by omega)]
      exact hok
  refine hclamp.bind ?_ fun _ _ => Follows.pure _ _
  intro clamped s x s' hrun hquiet
  cases hrun
  exact hquiet

/-- A section table that the end of the file has not cut off. -/
theorem readSectionTable_append {strictness : Strictness} {length sectionsOffset : Nat}
    {numberOfSections : UInt16} {r r' : Reader} {table : List Section × List Diagnostic}
    (hrun : (readSectionTable strictness length sectionsOffset numberOfSections).run r =
      .ok table r')
    (hall : table.1.length = numberOfSections.toNat) (hquiet : table.2 = []) :
    (readSectionTable strictness (length + tl.length) sectionsOffset numberOfSections).run
      (r.extend tl) = .ok table (r'.extend tl) := by
  obtain ⟨hle, count, sections, hcount, hsections, rfl⟩ := readSectionTable_ok_iff.mp hrun
  have hlength : (r.extend tl).data.length = r.data.length + tl.length := List.length_append
  have hcount_eq : count = numberOfSections.toNat := by
    rw [← Returns.repeatM_length _ _ _ _ _ hsections, ← hall, List.length_map]
  have hroom : min numberOfSections.toNat ((r.data.length - sectionsOffset) / 40) =
      numberOfSections.toNat := by
    unfold sectionCount at hcount
    simp only at hcount
    split at hcount
    · cases hcount
    · exact (Except.ok.inj hcount).trans hcount_eq
  refine readSectionTable_ok_iff.mpr ⟨by omega, count, sections, ?_, ?_, rfl⟩
  · have hroom' : min numberOfSections.toNat
        (((r.extend tl).data.length - sectionsOffset) / 40) = numberOfSections.toNat := by
      rw [hlength]
      omega
    simp only [sectionCount, hroom', ne_eq, not_true, and_false, if_false, hcount_eq]
  · rw [Reader.moveTo_extend tl hle]
    exact (follows_sectionHeader tl strictness length).repeatM count _ _ _ hsections
      (List.flatMap_eq_nil_iff.mp hquiet)

end Container

/-- The number of data directories that the optional header declares. -/
def declaredDirectories (bytes : List UInt8) (plus : Bool) : Nat :=
  let optionalStart := peOffset bytes + 24
  leNat ((bytes.drop (if plus then optionalStart + 108 else optionalStart + 92)).take 4)

/-- An image that the end of the file has cut off nowhere. -/
structure Whole (image : PeImage) : Prop where
  directories : image.dataDirectories.length =
    min (declaredDirectories image.bytes image.isPe32Plus) 16
  sections : image.sections.length = numberOfSections image.bytes
  rawData : image.diagnostics = []
  headers : image.sizeOfHeaders.toNat ≤ image.bytes.length

/-- The image of a file that goes on. -/
def append (image : PeImage) (tl : List UInt8) : PeImage :=
  { image with bytes := image.bytes ++ tl }

variable {bytes : List UInt8} {strictness : Strictness} {image : PeImage}

/-- The directories that are declared are counted at their place in the bytes. -/
theorem readDirectoryCount_ok {optionalStart : Nat} {plus : Bool} {r r' : Reader}
    {declaredDirs : UInt32}
    (hrun : (readDirectoryCount optionalStart plus).run r = .ok declaredDirs r') :
    declaredDirs.toNat =
      leNat ((r.data.drop (if plus then optionalStart + 108 else optionalStart + 92)).take 4) := by
  obtain ⟨_, _, hseek, hrun⟩ := run_bind_ok_iff.mp hrun
  obtain ⟨hle, rfl⟩ := Reader.seek_ok_iff.mp hseek
  exact (Reader.u32_at hle hrun).2.1

theorem readOptionalFields_data {optionalStart : Nat} {r r' : Reader} {fields : OptionalHeader}
    (hrun : (readOptionalFields optionalStart).run r = .ok fields r') : r'.data = r.data := by
  have hkeeps : Reader.KeepsData (readOptionalFields optionalStart) :=
    Reader.keepsData_u16.bind fun _ => (Reader.KeepsData.ofExcept _).bind fun plus =>
      (Reader.keepsData_seek _).bind fun _ => Reader.keepsData_u32.bind fun _ =>
      (keepsData_readImageBase plus _).bind fun _ => Reader.keepsData_u32.bind fun _ =>
      Reader.keepsData_u32.bind fun _ => (Reader.keepsData_seek _).bind fun _ =>
      Reader.keepsData_u32.bind fun _ => Reader.keepsData_u32.bind fun _ =>
      (Reader.keepsData_seek _).bind fun _ => Reader.keepsData_u16.bind fun _ =>
      Reader.keepsData_u16.bind fun _ => Reader.KeepsData.pure _
  exact hkeeps r fields r' hrun

/-- A whole image is read alike whatever follows it. -/
theorem parseWith_append (h : parseWith bytes strictness = .ok image) (hwhole : image.Whole)
    (tl : List UInt8) : parseWith (bytes ++ tl) strictness = .ok (image.append tl) := by
  obtain ⟨hdirectories, hsections, hquiet, _⟩ := hwhole
  obtain ⟨coff, r1, optional, r2, table, r3, hcoff, hoptional, htable, rfl⟩ := parseWith_ok_iff.mp h
  obtain ⟨hcount, hstart, _, hdata⟩ := readCoffHeader_places hcoff
  have hcoff' := follows_coffHeader tl _ _ _ hcoff trivial
  rw [Reader.new_extend] at hcoff'
  have hoptional' : (readOptionalHeader coff.optionalStart).run (r1.extend tl) =
      .ok optional (r2.extend tl) := by
    rw [readOptionalHeader_eq] at hoptional ⊢
    obtain ⟨fields, s1, hfields, hrest⟩ := run_bind_ok_iff.mp hoptional
    obtain ⟨declared, s2, hdeclared, hrest⟩ := run_bind_ok_iff.mp hrest
    have hplus : optional.isPe32Plus = fields.isPe32Plus := by
      obtain ⟨_, _, hget, hrest⟩ := run_bind_ok_iff.mp hrest
      cases hget
      obtain ⟨_, _, _, hpure⟩ := run_bind_ok_iff.mp hrest
      cases hpure
      rfl
    have hall : optional.dataDirectories.length = min declared.toNat 16 := by
      rw [readDirectoryCount_ok hdeclared, readOptionalFields_data hfields, hdata, hstart, ← hplus]
      exact hdirectories
    refine run_bind_ok_iff.mpr ⟨fields, _, follows_optionalFields tl _ _ _ _ hfields trivial, ?_⟩
    refine run_bind_ok_iff.mpr ⟨declared, _, follows_directoryCount tl _ _ _ _ _ hdeclared trivial,
      ?_⟩
    exact follows_directories tl fields declared _ _ _ hrest hall
  have htable' := readSectionTable_append tl htable (hsections.trans hcount.symm) hquiet
  rw [← List.length_append] at htable'
  exact parseWith_ok_iff.mpr ⟨coff, _, optional, _, table, _, hcoff', hoptional', htable', rfl⟩

/-! ## What is decoded from it -/

section Lookups

variable (tl : List UInt8)

/-- The raw data of a section that has a byte for an address. -/
theorem raw_ends {s : Section} {length delta : Nat} (hin : s.InFile length)
    (hbacked : ¬ s.sizeOfRawData.toNat ≤ delta) :
    s.pointerToRawData.toNat + s.sizeOfRawData.toNat ≤ length := by
  rcases hin with hzero | hle
  · rw [hzero] at hbacked
    exact absurd (Nat.zero_le _) hbacked
  · exact hle

theorem length_append_bytes : (image.append tl).bytes.length = image.bytes.length + tl.length :=
  List.length_append

theorem append_rvaToOffset (hsections : ∀ s ∈ image.sections, s.InFile image.bytes.length)
    (hheaders : image.sizeOfHeaders.toNat ≤ image.bytes.length) (rva : UInt32) :
    (image.append tl).rvaToOffset rva = image.rvaToOffset rva := by
  have hlength : (image.append tl).bytes.length = image.bytes.length + tl.length :=
    length_append_bytes tl
  have hfind : (image.append tl).sectionAt? rva = image.sectionAt? rva := rfl
  rw [rvaToOffset, rvaToOffset, hfind]
  cases hsection : image.sectionAt? rva with
  | some s =>
      have hin := hsections s (List.mem_of_find?_eq_some hsection)
      by_cases hbacked : s.sizeOfRawData.toNat ≤ rva.toNat - s.virtualAddress.toNat
      · simp only [if_pos hbacked]
      · have hfile := raw_ends hin hbacked
        simp only [if_neg hbacked, checkedAdd]
        split
        · show (if _ then _ else _) = if _ then _ else _
          rw [if_pos (by omega), if_pos (by omega)]
        · rfl
  | none =>
      have hsize : (image.append tl).sizeOfHeaders = image.sizeOfHeaders := rfl
      simp only [hsize]
      by_cases hmapped : rva.toNat < image.sizeOfHeaders.toNat
      · rw [if_pos ⟨hmapped, by omega⟩, if_pos ⟨hmapped, by omega⟩]
      · rw [if_neg fun h => hmapped h.1, if_neg fun h => hmapped h.1]

theorem append_rvaAvailable (hsections : ∀ s ∈ image.sections, s.InFile image.bytes.length)
    (hheaders : image.sizeOfHeaders.toNat ≤ image.bytes.length) (rva : UInt32) :
    (image.append tl).rvaAvailable rva = image.rvaAvailable rva := by
  have hlength : (image.append tl).bytes.length = image.bytes.length + tl.length :=
    length_append_bytes tl
  have hfind : (image.append tl).sectionAt? rva = image.sectionAt? rva := rfl
  rw [rvaAvailable, rvaAvailable, hfind]
  cases hsection : image.sectionAt? rva with
  | some s =>
      have hin := hsections s (List.mem_of_find?_eq_some hsection)
      by_cases hbacked : s.sizeOfRawData.toNat ≤ rva.toNat - s.virtualAddress.toNat
      · simp only [if_pos hbacked]
      · have hfile := raw_ends hin hbacked
        simp only [if_neg hbacked, checkedAdd]
        split
        · show (checkedSub _ _ >>= _) = checkedSub _ _ >>= _
          rw [checkedSub, checkedSub, if_pos (by omega), if_pos (by omega)]
          -- the section ends before the file does
          show some _ = some _
          congr 1
          omega
        · rfl
  | none =>
      have hsize : (image.append tl).sizeOfHeaders = image.sizeOfHeaders := rfl
      simp only [hsize]
      rw [Nat.min_eq_left (by omega), Nat.min_eq_left (by omega)]

theorem append_rvaSlice (hsections : ∀ s ∈ image.sections, s.InFile image.bytes.length)
    (hheaders : image.sizeOfHeaders.toNat ≤ image.bytes.length) (rva : UInt32) (len : Nat) :
    (image.append tl).rvaSlice rva len = image.rvaSlice rva len := by
  rw [rvaSlice, rvaSlice, append_rvaToOffset tl hsections hheaders,
    append_rvaAvailable tl hsections hheaders]
  have hlength : (image.append tl).bytes.length = image.bytes.length + tl.length :=
    length_append_bytes tl
  rcases lookup_cases hsections rva with ⟨o, n, ho, hn, _, hfile, hmax⟩ | ⟨hnone, _⟩
  · rw [ho, hn]
    simp only [Option.getD_some]
    by_cases hlen : n < len
    · rw [if_pos hlen, if_pos hlen]
    · have hadd : checkedAdd o len = some (o + len) := if_pos (by omega)
      have hslice : slice? (image.append tl).bytes o (o + len) =
          slice? image.bytes o (o + len) := by
        rw [slice?_of_le (by omega), slice?_of_le (by omega)]
        show some (((image.bytes ++ tl).drop o).take len) = _
        rw [List.drop_append_of_le_length (by omega), List.take_append_of_le_length]
        rw [List.length_drop]
        omega
      simp only [if_neg hlen, hadd, hslice]
  · rw [hnone]

theorem append_rvaRest (hsections : ∀ s ∈ image.sections, s.InFile image.bytes.length)
    (hheaders : image.sizeOfHeaders.toNat ≤ image.bytes.length) (rva : UInt32) :
    (image.append tl).rvaRest rva = image.rvaRest rva := by
  rw [rvaRest, rvaRest, append_rvaAvailable tl hsections hheaders]
  cases image.rvaAvailable rva with
  | none => rfl
  | some len => exact append_rvaSlice tl hsections hheaders rva len

theorem append_cliHeader (hsections : ∀ s ∈ image.sections, s.InFile image.bytes.length)
    (hheaders : image.sizeOfHeaders.toNat ≤ image.bytes.length) :
    (image.append tl).cliHeader = image.cliHeader := by
  have hdirectory : (image.append tl).dataDirectory cliHeaderDirectory =
      image.dataDirectory cliHeaderDirectory := rfl
  have hmode : (image.append tl).strictness = image.strictness := rfl
  simp only [cliHeader, cliBase, hdirectory, hmode, append_rvaToOffset tl hsections hheaders,
    append_rvaAvailable tl hsections hheaders, append_rvaSlice tl hsections hheaders]

theorem append_metadata (hsections : ∀ s ∈ image.sections, s.InFile image.bytes.length)
    (hheaders : image.sizeOfHeaders.toNat ≤ image.bytes.length) :
    (image.append tl).metadata = image.metadata := by
  have hmode : (image.append tl).strictness = image.strictness := rfl
  simp only [metadata, hmode, append_cliHeader tl hsections hheaders,
    append_rvaToOffset tl hsections hheaders, append_rvaAvailable tl hsections hheaders,
    append_rvaSlice tl hsections hheaders]

end Lookups

/-- What follows a whole image changes nothing that is decoded from it: the lookups, the CLI
header and its diagnostics, the metadata, the entry point and the method bodies are those of
the file without it. -/
theorem overlay_ignored (h : parseWith bytes strictness = .ok image) (hwhole : image.Whole)
    (tl : List UInt8) :
    parseWith (bytes ++ tl) strictness = .ok (image.append tl) ∧
    (∀ rva, (image.append tl).rvaToOffset rva = image.rvaToOffset rva ∧
      (image.append tl).rvaAvailable rva = image.rvaAvailable rva) ∧
    (∀ rva len, (image.append tl).rvaSlice rva len = image.rvaSlice rva len) ∧
    (image.append tl).cliHeader = image.cliHeader ∧
    (image.append tl).cliHeaderDiagnostics = image.cliHeaderDiagnostics ∧
    (image.append tl).metadata = image.metadata ∧
    (image.append tl).entryPointToken = image.entryPointToken ∧
    ∀ method, MethodBody.fromImage (image.append tl) method =
      MethodBody.fromImage image method := by
  obtain ⟨hbytes, hsections⟩ := section_inFile h
  rw [← hbytes] at hsections
  have hheaders := hwhole.headers
  have hheader := append_cliHeader tl hsections hheaders
  have hbase : (image.append tl).cliBase = image.cliBase := by
    have hdirectory : (image.append tl).dataDirectory cliHeaderDirectory =
        image.dataDirectory cliHeaderDirectory := rfl
    rw [cliBase, cliBase, hdirectory, append_rvaToOffset tl hsections hheaders]
  refine ⟨parseWith_append h hwhole tl, ?_, append_rvaSlice tl hsections hheaders, hheader, ?_,
    append_metadata tl hsections hheaders, ?_, ?_⟩
  · intro rva
    exact ⟨append_rvaToOffset tl hsections hheaders rva,
      append_rvaAvailable tl hsections hheaders rva⟩
  · rw [cliHeaderDiagnostics, cliHeaderDiagnostics, hheader, hbase]
  · rw [entryPointToken, entryPointToken, hheader]
  · intro method
    have hmode : (image.append tl).strictness = image.strictness := rfl
    rw [MethodBody.fromImage, MethodBody.fromImage, hmode,
      append_rvaRest tl hsections hheaders]

/-- The library of one method with three bytes behind it. -/
theorem overlay_ignored_oneMethod :
    ∃ m, ((ManagedFile.oneMethodFile.image .permissive).append [1, 2, 3]).metadata = .ok m ∧
      parseWith (ManagedFile.oneMethodFile.bytes ++ [1, 2, 3]) .permissive =
        .ok ((ManagedFile.oneMethodFile.image .permissive).append [1, 2, 3]) := by
  have hwhole : (ManagedFile.oneMethodFile.image .permissive).Whole :=
    ⟨by decide +kernel, by decide +kernel, rfl, by decide +kernel⟩
  have hok : (ManagedFile.oneMethodFile.image .permissive).metadata.toOption.map
      Metadata.diagnostics = some [] := by
    decide +kernel
  obtain ⟨m, hm, _⟩ := Option.map_eq_some_iff.mp hok
  obtain ⟨hparse, _, _, _, _, hmetadata, _⟩ := overlay_ignored
    (ManagedFile.oneMethodFile.parseWith_bytes .permissive) hwhole [1, 2, 3]
  exact ⟨m, hmetadata.trans (ok_of_toOption hm), hparse⟩

end PeImage

end Cildec
