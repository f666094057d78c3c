import Cildec.Reader

/-!
# The PE/COFF container (`src/pe.rs`)

The MS-DOS stub, the COFF and optional headers, the data directories and the section table.
-/

namespace Cildec

open Wire

/-- `CTX` of the container. -/
def peContext : String := "PE image"

/-- A `(RVA, size)` pair. -/
structure DataDirectory where
  rva : UInt32
  size : UInt32
  deriving DecidableEq, Repr

/-- One entry of the section table. -/
structure Section where
  nameBytes : List UInt8
  virtualSize : UInt32
  virtualAddress : UInt32
  sizeOfRawData : UInt32
  pointerToRawData : UInt32
  characteristics : UInt32
  deriving DecidableEq, Repr

/-- A parsed managed PE image. -/
structure PeImage where
  bytes : List UInt8
  strictness : Strictness
  diagnostics : List Diagnostic
  machine : UInt16
  characteristics : UInt16
  isPe32Plus : Bool
  imageBase : UInt64
  sectionAlignment : UInt32
  fileAlignment : UInt32
  sizeOfImage : UInt32
  sizeOfHeaders : UInt32
  subsystem : UInt16
  dllCharacteristics : UInt16
  entryPointRva : UInt32
  dataDirectories : List DataDirectory
  sections : List Section
  deriving DecidableEq, Repr

namespace PeImage

/-- `MZ` -/
def dosSignature : List UInt8 := [0x4D, 0x5A]

/-- `PE\0\0` -/
def peSignature : List UInt8 := [0x50, 0x45, 0x00, 0x00]

/-- The COFF header, and where the optional header starts. -/
structure CoffHeader where
  machine : UInt16
  numberOfSections : UInt16
  sizeOfOptionalHeader : UInt16
  characteristics : UInt16
  optionalStart : Nat
  deriving DecidableEq, Repr

/-- A signature stands where it has to. -/
def checkSignature (found expected : List UInt8) (offset : Nat) : Result Unit :=
  if found ≠ expected then .error (Error.new .malformed offset peContext) else .ok ()

/-- The signatures and the COFF header. -/
def readCoffHeader : Read CoffHeader := do
  let dos ← Reader.take 2
  Wire.ofExcept (checkSignature dos dosSignature 0)
  Reader.seek 0x3C
  let peOffset ← Reader.u32
  Reader.seek peOffset.toNat
  let pe ← Reader.take 4
  Wire.ofExcept (checkSignature pe peSignature peOffset.toNat)
  let machine ← Reader.u16
  let numberOfSections ← Reader.u16
  let _timeDateStamp ← Reader.u32
  let _pointerToSymbolTable ← Reader.u32
  let _numberOfSymbols ← Reader.u32
  let sizeOfOptionalHeader ← Reader.u16
  let characteristics ← Reader.u16
  let r ← get
  return { machine, numberOfSections, sizeOfOptionalHeader, characteristics,
           optionalStart := r.position }

/-- The optional header fields that are kept. -/
structure OptionalHeader where
  isPe32Plus : Bool
  entryPointRva : UInt32
  imageBase : UInt64
  sectionAlignment : UInt32
  fileAlignment : UInt32
  sizeOfImage : UInt32
  sizeOfHeaders : UInt32
  subsystem : UInt16
  dllCharacteristics : UInt16
  dataDirectories : List DataDirectory
  deriving DecidableEq, Repr

/-- The magic of a PE32 or PE32+ optional header. -/
def isPlus (magic : UInt16) (optionalStart : Nat) : Result Bool :=
  if magic = 0x010B then .ok false
  else if magic = 0x020B then .ok true
  else .error (Error.new .unsupported optionalStart peContext)

/-- `ImageBase`, widened to 64 bits for PE32. -/
def readImageBase (plus : Bool) (optionalStart : Nat) : Read UInt64 :=
  if plus then do
    Reader.seek (optionalStart + 24)
    Reader.u64
  else do
    Reader.seek (optionalStart + 28)
    let v ← Reader.u32
    return v.toUInt64

def readDirectory : Read DataDirectory := do
  let rva ← Reader.u32
  let size ← Reader.u32
  return { rva, size }

def readOptionalHeader (optionalStart : Nat) : Read OptionalHeader := do
  let magic ← Reader.u16
  let plus ← Wire.ofExcept (isPlus magic optionalStart)
  Reader.seek (optionalStart + 16)
  let entryPointRva ← Reader.u32
  let imageBase ← readImageBase plus optionalStart
  let sectionAlignment ← Reader.u32
  let fileAlignment ← Reader.u32
  Reader.seek (optionalStart + 56)
  let sizeOfImage ← Reader.u32
  let sizeOfHeaders ← Reader.u32
  Reader.seek (optionalStart + 68)
  let subsystem ← Reader.u16
  let dllCharacteristics ← Reader.u16
  Reader.seek (if plus then optionalStart + 108 else optionalStart + 92)
  let declaredDirs ← Reader.u32
  let r ← get
  -- 16 is the architectural maximum
  let dirCount := min (min declaredDirs.toNat 16) (r.remaining / 8)
  let dataDirectories ← Wire.repeatM readDirectory dirCount
  return { isPe32Plus := plus, entryPointRva, imageBase, sectionAlignment, fileAlignment,
           sizeOfImage, sizeOfHeaders, subsystem, dllCharacteristics, dataDirectories }

/-- The number of section headers the file has room for. -/
def sectionCount (strictness : Strictness) (numberOfSections remaining sectionsOffset : Nat) :
    Result Nat :=
  let count := min numberOfSections (remaining / 40)
  if strictness.isStrict = true ∧ count ≠ numberOfSections then
    .error (Error.new .truncated sectionsOffset peContext)
  else .ok count

/-- `SizeOfRawData`, cut to the file. -/
def clampRawData (strictness : Strictness) (length headerAt : Nat)
    (sizeOfRawData pointerToRawData : UInt32) : Result (UInt32 × List Diagnostic) :=
  let rawEnd := pointerToRawData.toNat + sizeOfRawData.toNat
  if length < rawEnd then
    if strictness.isStrict then .error (Error.new .truncated headerAt peContext)
    else .ok (UInt32.ofNat (min (length - pointerToRawData.toNat) (2 ^ 32 - 1)),
      [.new .sectionRangeClamped headerAt rawEnd])
  else .ok (sizeOfRawData, [])

def readSectionHeader (strictness : Strictness) (length : Nat) :
    Read (Section × List Diagnostic) := do
  let r ← get
  let nameBytes ← Reader.take 8
  let virtualSize ← Reader.u32
  let virtualAddress ← Reader.u32
  let sizeOfRawData ← Reader.u32
  let pointerToRawData ← Reader.u32
  let _pointerToRelocations ← Reader.u32
  let _pointerToLinenumbers ← Reader.u32
  let _numberOfRelocations ← Reader.u16
  let _numberOfLinenumbers ← Reader.u16
  let characteristics ← Reader.u32
  let (sizeOfRawData, diagnostics) ←
    Wire.ofExcept (clampRawData strictness length r.absolute sizeOfRawData pointerToRawData)
  return ({ nameBytes, virtualSize, virtualAddress, sizeOfRawData, pointerToRawData,
            characteristics }, diagnostics)

/-- The section table. -/
def readSectionTable (strictness : Strictness) (length sectionsOffset : Nat)
    (numberOfSections : UInt16) : Read (List Section × List Diagnostic) := do
  Reader.seek sectionsOffset
  let r ← get
  let count ← Wire.ofExcept
    (sectionCount strictness numberOfSections.toNat r.remaining sectionsOffset)
  let sections ← Wire.repeatM (readSectionHeader strictness length) count
  return (sections.map Prod.fst, sections.flatMap Prod.snd)

def parseImage (bytes : List UInt8) (strictness : Strictness) : Read PeImage := do
  let coff ← readCoffHeader
  let optional ← readOptionalHeader coff.optionalStart
  -- the declared size is authoritative even when it disagrees with the magic
  let sectionsOffset := coff.optionalStart + coff.sizeOfOptionalHeader.toNat
  let (sections, diagnostics) ←
    readSectionTable strictness bytes.length sectionsOffset coff.numberOfSections
  return {
    bytes
    strictness
    diagnostics
    machine := coff.machine
    characteristics := coff.characteristics
    isPe32Plus := optional.isPe32Plus
    imageBase := optional.imageBase
    sectionAlignment := optional.sectionAlignment
    fileAlignment := optional.fileAlignment
    sizeOfImage := optional.sizeOfImage
    sizeOfHeaders := optional.sizeOfHeaders
    subsystem := optional.subsystem
    dllCharacteristics := optional.dllCharacteristics
    entryPointRva := optional.entryPointRva
    dataDirectories := optional.dataDirectories
    sections }

/-- Parses a PE image with an explicit strictness. -/
def parseWith (bytes : List UInt8) (strictness : Strictness) : Result PeImage :=
  match (parseImage bytes strictness).run (Reader.new bytes 0 peContext) with
  | .ok image _ => .ok image
  | .error e _ => .error e

end PeImage

end Cildec
