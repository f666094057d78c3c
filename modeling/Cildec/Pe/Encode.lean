import Cildec.Lib.Segments
import Cildec.Pe.Cli

/-!
# Writing an image (ECMA-335 II.25)

The format, from the writer's side. `CliHeader.bytes` are the 72 bytes of a CLI header. An
`ImageFile` is an image to be written: its headers with the fields the reader skips as bytes of
the right number, and sections that carry their data, one after another in the file and in the
address space. The directories and the CLI header may name any part of the sections. Nothing
here is translated from the reader.
-/

namespace Cildec

open Wire

/-! ## The CLI header -/

namespace DataDirectory

def bytes (d : DataDirectory) : List UInt8 := leBytes 4 d.rva.toNat ++ leBytes 4 d.size.toNat

theorem bytes_length (d : DataDirectory) : d.bytes.length = 8 := by
  rw [bytes, List.length_append, leBytes_length, leBytes_length]

end DataDirectory

/-- `EntryPointToken`, whatever it holds. -/
def EntryPoint.raw : EntryPoint → UInt32
  | .none => 0
  | .token t => t.value
  | .rva address => address

namespace CliHeader

/-- The entry point is of the kind its flags and its value say. -/
def Expressible (h : CliHeader) : Prop := entryPointOf h.flags h.entryPoint.raw = h.entryPoint

/-- The directories after the entry point. -/
def directories (h : CliHeader) : List DataDirectory :=
  [h.resources, h.strongNameSignature, h.codeManagerTable, h.vtableFixups,
    h.exportAddressTableJumps, h.managedNativeHeader]

/-- The 72 bytes of the header. -/
def bytes (h : CliHeader) : List UInt8 :=
  leBytes 4 h.size.toNat ++ (leBytes 2 h.majorRuntimeVersion.toNat ++
    (leBytes 2 h.minorRuntimeVersion.toNat ++ (h.metadata.bytes ++
      (leBytes 4 h.flags.bits.toNat ++ (leBytes 4 h.entryPoint.raw.toNat ++
        h.directories.flatMap DataDirectory.bytes)))))

theorem bytes_length (h : CliHeader) : h.bytes.length = 72 := by
  have htail : (h.directories.flatMap DataDirectory.bytes).length = h.directories.length * 8 :=
    length_flatMap_const fun d _ => d.bytes_length
  have hsix : h.directories.length = 6 := rfl
  simp only [bytes, List.length_append, leBytes_length, DataDirectory.bytes_length, htail,
    hsix]

end CliHeader

/-! ## Sections -/

/-- A section to be written: its header, the bytes that stand before its data in the file, and
its data. -/
structure SectionData where
  name : List UInt8
  virtualSize : UInt32
  virtualAddress : UInt32
  pointerToRelocations : UInt32
  pointerToLinenumbers : UInt32
  numberOfRelocations : UInt16
  numberOfLinenumbers : UInt16
  characteristics : UInt32
  lead : List UInt8
  data : List UInt8
  name_length : name.length = 8
  deriving DecidableEq

namespace SectionData

/-- What the section takes of the file. -/
def content (s : SectionData) : List UInt8 := s.lead ++ s.data

/-- The section header, for content that starts at an offset of the file. -/
def header (start : Nat) (s : SectionData) : Section where
  nameBytes := s.name
  virtualSize := s.virtualSize
  virtualAddress := s.virtualAddress
  sizeOfRawData := UInt32.ofNat s.data.length
  pointerToRawData := UInt32.ofNat (start + s.lead.length)
  characteristics := s.characteristics

/-- The forty bytes of the section header. -/
def headerBytes (start : Nat) (s : SectionData) : List UInt8 :=
  s.name ++ (leBytes 4 s.virtualSize.toNat ++ (leBytes 4 s.virtualAddress.toNat ++
    (leBytes 4 s.data.length ++ (leBytes 4 (start + s.lead.length) ++
      (leBytes 4 s.pointerToRelocations.toNat ++ (leBytes 4 s.pointerToLinenumbers.toNat ++
        (leBytes 2 s.numberOfRelocations.toNat ++ (leBytes 2 s.numberOfLinenumbers.toNat ++
          leBytes 4 s.characteristics.toNat))))))))

theorem headerBytes_length (start : Nat) (s : SectionData) :
    (s.headerBytes start).length = 40 := by
  simp only [headerBytes, List.length_append, leBytes_length, s.name_length]

/-- The number of addresses of the section. -/
def extent (s : SectionData) : Nat :=
  if s.virtualSize = 0 then s.data.length else s.virtualSize.toNat

end SectionData

/-! ## The file -/

/-- The headers of an image to be written. Fields that the reader passes over are bytes. -/
structure ImageHeaders where
  dosStub : List UInt8
  gap : List UInt8
  machine : UInt16
  timeDateStamp : UInt32
  pointerToSymbolTable : UInt32
  numberOfSymbols : UInt32
  characteristics : UInt16
  isPe32Plus : Bool
  linker : List UInt8
  entryPointRva : UInt32
  bases : List UInt8
  imageBase : UInt64
  sectionAlignment : UInt32
  fileAlignment : UInt32
  versions : List UInt8
  sizeOfImage : UInt32
  sizeOfHeaders : UInt32
  checksum : List UInt8
  subsystem : UInt16
  dllCharacteristics : UInt16
  reserves : List UInt8
  directories : List DataDirectory
  optionalTail : List UInt8
  dosStub_length : dosStub.length = 58
  gap_fits : 64 + gap.length < 2 ^ 32
  linker_length : linker.length = 14
  bases_length : bases.length = if isPe32Plus then 4 else 8
  imageBase_fits : isPe32Plus = false → imageBase.toNat < 2 ^ 32
  versions_length : versions.length = 16
  checksum_length : checksum.length = 4
  reserves_length : reserves.length = if isPe32Plus then 36 else 20
  directories_length : directories.length ≤ 16
  optionalTail_fits : optionalTail.length < 2 ^ 15

namespace ImageHeaders

variable (h : ImageHeaders)

/-- Where the `PE` signature stands. -/
def peOffset : Nat := 64 + h.gap.length

/-- Where the optional header starts. -/
def optionalStart : Nat := h.peOffset + 24

/-- The part of the optional header that is read. -/
def optionalSize : Nat := (if h.isPe32Plus then 112 else 96) + 8 * h.directories.length

/-- `SizeOfOptionalHeader`. -/
def sizeOfOptionalHeader : Nat := h.optionalSize + h.optionalTail.length

/-- Where the section table starts. -/
def sectionsOffset : Nat := h.optionalStart + h.sizeOfOptionalHeader

/-- The MS-DOS header up to the `PE` signature. -/
def dosBytes : List UInt8 :=
  [0x4D, 0x5A] ++ (h.dosStub ++ (leBytes 4 h.peOffset ++ h.gap))

/-- The signature and the COFF header of an image with some number of sections. -/
def coffBytes (sections : Nat) : List UInt8 :=
  [0x50, 0x45, 0x00, 0x00] ++ (leBytes 2 h.machine.toNat ++ (leBytes 2 sections ++
    (leBytes 4 h.timeDateStamp.toNat ++ (leBytes 4 h.pointerToSymbolTable.toNat ++
      (leBytes 4 h.numberOfSymbols.toNat ++ (leBytes 2 h.sizeOfOptionalHeader ++
        leBytes 2 h.characteristics.toNat))))))

/-- `ImageBase`, in the width of the format. -/
def imageBaseBytes : List UInt8 := leBytes (if h.isPe32Plus then 8 else 4) h.imageBase.toNat

/-- The optional header. -/
def optionalBytes : List UInt8 :=
  leBytes 2 (if h.isPe32Plus then 0x020B else 0x010B) ++ (h.linker ++
    (leBytes 4 h.entryPointRva.toNat ++ (h.bases ++ (h.imageBaseBytes ++
      (leBytes 4 h.sectionAlignment.toNat ++ (leBytes 4 h.fileAlignment.toNat ++ (h.versions ++
        (leBytes 4 h.sizeOfImage.toNat ++ (leBytes 4 h.sizeOfHeaders.toNat ++ (h.checksum ++
          (leBytes 2 h.subsystem.toNat ++ (leBytes 2 h.dllCharacteristics.toNat ++
            (h.reserves ++ (leBytes 4 h.directories.length ++
              h.directories.flatMap DataDirectory.bytes))))))))))))))

/-! ### Lengths -/

theorem dosBytes_length : h.dosBytes.length = h.peOffset := by
  simp only [dosBytes, peOffset, List.length_append, leBytes_length,
    h.dosStub_length, List.length_cons, List.length_nil]
  omega

theorem coffBytes_length (n : Nat) : (h.coffBytes n).length = 24 := by
  simp only [coffBytes, List.length_append, leBytes_length, List.length_cons,
    List.length_nil]

theorem optionalBytes_length : h.optionalBytes.length = h.optionalSize := by
  simp only [optionalBytes, optionalSize, imageBaseBytes, List.length_append, leBytes_length,
    length_flatMap_const fun d (_ : d ∈ h.directories) => d.bytes_length, h.linker_length,
    h.bases_length, h.versions_length, h.checksum_length, h.reserves_length]
  rw [Nat.mul_comm h.directories.length 8]
  rcases Bool.eq_false_or_eq_true h.isPe32Plus with hplus | hplus
  · simp only [hplus, if_true, ← Nat.add_assoc, Nat.reduceAdd]
  · simp only [hplus, Bool.false_eq_true, if_false, ← Nat.add_assoc, Nat.reduceAdd]

end ImageHeaders

/-- An image to be written: its sections follow the section table and each other, and their
addresses increase. -/
structure ImageFile where
  headers : ImageHeaders
  sections : List SectionData
  trailer : List UInt8
  sections_fit : sections.length < 2 ^ 16
  raw_fits : ∀ e ∈ startsFrom (fun s => s.content.length)
    (headers.sectionsOffset + 40 * sections.length) sections,
      e.1 + e.2.lead.length < 2 ^ 32 ∧ e.2.data.length < 2 ^ 32
  addresses_fit : ∀ s ∈ sections, s.virtualAddress.toNat + s.extent < 2 ^ 32
  addresses_increase : sections.Pairwise fun s t =>
    s.virtualAddress.toNat + s.extent ≤ t.virtualAddress.toNat

namespace ImageFile

variable (f : ImageFile)

/-- Where the content of the sections starts. -/
def contentStart : Nat := f.headers.sectionsOffset + 40 * f.sections.length

/-- The sections with the offsets of their content. -/
def entries : List (Nat × SectionData) :=
  startsFrom (fun s => s.content.length) f.contentStart f.sections

def sectionTable : List UInt8 := f.entries.flatMap fun e => e.2.headerBytes e.1

def content : List UInt8 := f.sections.flatMap SectionData.content

/-- Everything before the content of the sections. -/
def headerBytes : List UInt8 :=
  f.headers.dosBytes ++ (f.headers.coffBytes f.sections.length ++ (f.headers.optionalBytes ++
    (f.headers.optionalTail ++ f.sectionTable)))

/-- The file. -/
def bytes : List UInt8 := f.headerBytes ++ (f.content ++ f.trailer)

/-- The section table, as it is read. -/
def sectionHeaders : List Section := f.entries.map fun e => e.2.header e.1

/-- The image, as it is read. -/
def image (strictness : Strictness) : PeImage where
  bytes := f.bytes
  strictness := strictness
  diagnostics := []
  machine := f.headers.machine
  characteristics := f.headers.characteristics
  isPe32Plus := f.headers.isPe32Plus
  imageBase := f.headers.imageBase
  sectionAlignment := f.headers.sectionAlignment
  fileAlignment := f.headers.fileAlignment
  sizeOfImage := f.headers.sizeOfImage
  sizeOfHeaders := f.headers.sizeOfHeaders
  subsystem := f.headers.subsystem
  dllCharacteristics := f.headers.dllCharacteristics
  entryPointRva := f.headers.entryPointRva
  dataDirectories := f.headers.directories
  sections := f.sectionHeaders

/-! ## Lengths -/

theorem entries_snd : f.entries.map Prod.snd = f.sections := startsFrom_snd

theorem entries_length : f.entries.length = f.sections.length := by
  have h := congrArg List.length f.entries_snd
  rwa [List.length_map] at h

theorem sectionTable_length : f.sectionTable.length = 40 * f.sections.length := by
  have h : f.sectionTable.length = f.entries.length * 40 :=
    length_flatMap_const fun e _ => e.2.headerBytes_length e.1
  rw [h, f.entries_length, Nat.mul_comm]

theorem headerBytes_length : f.headerBytes.length = f.contentStart := by
  simp only [headerBytes, List.length_append, ImageHeaders.dosBytes_length,
    ImageHeaders.coffBytes_length, ImageHeaders.optionalBytes_length, sectionTable_length,
    contentStart, ImageHeaders.sectionsOffset,
    ImageHeaders.sizeOfOptionalHeader, ImageHeaders.optionalStart]
  omega

end ImageFile

end Cildec
