import Cildec.Heaps
import Cildec.Tables.Stream

/-!
# The metadata root and its streams (`src/metadata.rs`)

A region starts with the `BSJB` signature, the version string and a directory of named
streams. `Metadata.parseAt` reads the directory, finds the heaps and the table stream by
their names (the first one of a name wins) and parses the table stream.
-/

namespace Cildec

open Wire

/-- `CTX` of the metadata root. -/
def metadataContext : String := "metadata root"

/-- `BSJB` in little-endian order. -/
def metadataSignature : UInt32 := 0x424A5342

/-- `!0` as a `u64`. -/
def allBits : Nat := 2 ^ 64 - 1

/-- The table stream of a region that has none. -/
def Tables.empty : Tables where
  data := []
  base := 0
  majorVersion := 2
  minorVersion := 0
  heapSizes := 0
  valid := 0
  declaredSorted := 0
  verifiedSorted := allBits
  uncompressed := false
  extraData := none
  layouts := fun _ => .default

namespace Metadata

/-! ## The stream directory -/

/-- One entry of the stream directory, with the stream's bytes clamped to the region. -/
structure StreamHeader where
  nameBytes : List UInt8
  offset : UInt32
  size : UInt32
  data : List UInt8
  deriving DecidableEq, Repr

/-- `usize::next_multiple_of(4)`. -/
def nextMultipleOf4 (n : Nat) : Nat := (n + 3) / 4 * 4

/-- The version string up to its NUL. -/
def versionString (strictness : Strictness) (versionAt : Nat) (field : List UInt8) :
    Result (List UInt8 × List Diagnostic) :=
  match field.idxOf? 0 with
  | some stop => .ok (field.take stop, [])
  | none =>
      if strictness.isStrict then .error (Error.new .malformed versionAt metadataContext)
      else .ok (field, [.new .versionStringPadding versionAt field.length])

/-- The name at the front of `rest` and how far it reaches with its padding. -/
def streamName (strictness : Strictness) (nameAt : Nat) (rest : List UInt8) :
    Result (List UInt8 × Nat × List Diagnostic) :=
  match rest.idxOf? 0 with
  | some len => .ok (rest.take len, nextMultipleOf4 (len + 1), [])
  | none =>
      if strictness.isStrict then .error (Error.new .malformed nameAt metadataContext)
      else .ok (rest, rest.length, [.new .streamNamePadding nameAt rest.length])

/-- Names longer than 32 bytes are not legal. -/
def checkNameLength (strictness : Strictness) (nameAt : Nat) (name : List UInt8) : Result Unit :=
  if 32 < name.length ∧ strictness.isStrict = true then
    .error (Error.new .malformed nameAt metadataContext)
  else .ok ()

/-- The bytes of a stream, as far as they lie in the region. -/
def streamData (strictness : Strictness) (bytes : List UInt8) (base : Nat)
    (offset size : UInt32) : Result (List UInt8 × List Diagnostic) :=
  let start := offset.toNat
  let declaredEnd := satAdd start size.toNat
  let stop := min declaredEnd bytes.length
  let data := (slice? bytes (min start bytes.length) stop).getD []
  if data.length ≠ size.toNat then
    if strictness.isStrict then .error (Error.new .truncated (base + start) metadataContext)
    else .ok (data, [.new .streamRangeClamped (base + start) declaredEnd])
  else
    .ok (data, [])

/-- `let Ok(..) = .. else`: the value, or nothing where the read fails. -/
def attempt (p : Read α) : Read (Option α) := fun r =>
  match p.run r with
  | .ok a r' => .ok (some a) r'
  | .error _ r' => .ok none r'

/-- A dword of the directory. A truncated directory ends the list in permissive mode. -/
def directoryDword (strictness : Strictness) (entryAt : Nat) : Read (Option UInt32) := do
  match ← attempt Reader.u32 with
  | some v => return some v
  | none =>
      if strictness.isStrict then throw (Error.new .truncated entryAt metadataContext)
      else return none

/-- The name and the stream of an entry whose offset and size have been read. -/
def readStream (strictness : Strictness) (bytes : List UInt8) (base : Nat)
    (offset size : UInt32) : Read (StreamHeader × List Diagnostic) := do
  let r ← get
  let (nameBytes, advance, nameDiagnostics) ←
    Wire.ofExcept (streamName strictness r.absolute r.rest)
  Wire.ofExcept (checkNameLength strictness r.absolute nameBytes)
  Reader.seek (r.position + advance)
  let (data, dataDiagnostics) ← Wire.ofExcept (streamData strictness bytes base offset size)
  return ({ nameBytes, offset, size, data }, nameDiagnostics ++ dataDiagnostics)

/-- The entries of the directory, up to `count` of them. -/
def readDirectory (strictness : Strictness) (bytes : List UInt8) (base : Nat) :
    Nat → Read (List StreamHeader × List Diagnostic)
  | 0 => return ([], [])
  | count + 1 => do
      let r ← get
      let entryAt := r.absolute
      match ← directoryDword strictness entryAt with
      | none => return ([], [])
      | some offset =>
          match ← directoryDword strictness entryAt with
          | none => return ([], [])
          | some size => do
              let (stream, diagnostics) ← readStream strictness bytes base offset size
              let (streams, rest) ← readDirectory strictness bytes base count
              return (stream :: streams, diagnostics ++ rest)

/-! ## The streams by name -/

/-- `#Strings` -/
def stringsName : List UInt8 := [0x23, 0x53, 0x74, 0x72, 0x69, 0x6E, 0x67, 0x73]

/-- `#US` -/
def userStringsName : List UInt8 := [0x23, 0x55, 0x53]

/-- `#Blob` -/
def blobName : List UInt8 := [0x23, 0x42, 0x6C, 0x6F, 0x62]

/-- `#GUID` -/
def guidName : List UInt8 := [0x23, 0x47, 0x55, 0x49, 0x44]

/-- `#~` -/
def tablesName : List UInt8 := [0x23, 0x7E]

/-- `#-` -/
def uncompressedName : List UInt8 := [0x23, 0x2D]

/-- `#Pdb` -/
def pdbName : List UInt8 := [0x23, 0x50, 0x64, 0x62]

/-- What the streams seen so far are used for. -/
structure Roles where
  strings : StringsHeap
  userStrings : UserStringsHeap
  blobs : BlobHeap
  guids : GuidHeap
  tableStream : Option (List UInt8 × Nat × Bool)
  seen : List (List UInt8)
  hasPdbStream : Bool

/-- No stream seen yet. -/
def Roles.none : Roles where
  strings := .empty
  userStrings := .empty
  blobs := .empty
  guids := .empty
  tableStream := Option.none
  seen := []
  hasPdbStream := false

/-- The role of a stream of a new name. -/
def Roles.assign (roles : Roles) (stream : StreamHeader) (streamBase : Nat) : Roles :=
  let roles := { roles with seen := roles.seen ++ [stream.nameBytes] }
  if stream.nameBytes = stringsName then
    { roles with strings := .new stream.data streamBase }
  else if stream.nameBytes = userStringsName then
    { roles with userStrings := .new stream.data streamBase }
  else if stream.nameBytes = blobName then
    { roles with blobs := .new stream.data streamBase }
  else if stream.nameBytes = guidName then
    { roles with guids := .new stream.data streamBase }
  else if stream.nameBytes = tablesName then
    if roles.tableStream.isNone then
      { roles with tableStream := some (stream.data, streamBase, false) }
    else roles
  else if stream.nameBytes = uncompressedName then
    if roles.tableStream.isNone then
      { roles with tableStream := some (stream.data, streamBase, true) }
    else roles
  else if stream.nameBytes = pdbName then
    { roles with hasPdbStream := true }
  else roles

/-- One round of the loop over the streams. -/
def assignStream (strictness : Strictness) (base : Nat) (roles : Roles) (stream : StreamHeader) :
    Result (Roles × List Diagnostic) :=
  let streamBase := satAdd base stream.offset.toNat
  if stream.nameBytes ∈ roles.seen then
    if strictness.isStrict then .error (Error.new .malformed streamBase metadataContext)
    else .ok (roles, [.new .duplicateStreamName streamBase 0])
  else
    .ok (roles.assign stream streamBase, [])

/-- The loop over the streams. -/
def assignStreams (strictness : Strictness) (base : Nat) :
    List StreamHeader → Roles → Result (Roles × List Diagnostic)
  | [], roles => .ok (roles, [])
  | stream :: streams, roles => do
      let (roles, diagnostics) ← assignStream strictness base roles stream
      let (roles, rest) ← assignStreams strictness base streams roles
      return (roles, diagnostics ++ rest)

/-- The table stream, or an empty one. -/
def parseTables (strictness : Strictness) (base : Nat)
    (tableStream : Option (List UInt8 × Nat × Bool)) (diagnostics : List Diagnostic) :
    Result (Tables × List Diagnostic) :=
  match tableStream with
  | some (data, streamBase, uncompressed) =>
      Tables.parse data streamBase uncompressed strictness diagnostics
  | none =>
      if strictness.isStrict then .error (Error.new .malformed base metadataContext)
      else .ok (Tables.empty, diagnostics)

end Metadata

/-! ## The region -/

/-- A parsed metadata region. -/
structure Metadata where
  bytes : List UInt8
  base : Nat
  strictness : Strictness
  diagnostics : List Diagnostic
  majorVersion : UInt16
  minorVersion : UInt16
  flags : UInt16
  versionBytes : List UInt8
  streams : List Metadata.StreamHeader
  strings : StringsHeap
  userStrings : UserStringsHeap
  blobs : BlobHeap
  guids : GuidHeap
  tables : Tables
  hasPdbStream : Bool

namespace Metadata

/-- The root header: everything before the directory, and the number of its entries. -/
structure Root where
  majorVersion : UInt16
  minorVersion : UInt16
  versionBytes : List UInt8
  flags : UInt16
  streamCount : UInt16
  deriving DecidableEq, Repr

/-- The region starts with `BSJB`. -/
def checkSignature (base : Nat) (signature : UInt32) : Result Unit :=
  if signature ≠ metadataSignature then .error (Error.new .malformed base metadataContext)
  else .ok ()

def readRoot (strictness : Strictness) (base : Nat) : Read (Root × List Diagnostic) := do
  let signature ← Reader.u32
  Wire.ofExcept (checkSignature base signature)
  let majorVersion ← Reader.u16
  let minorVersion ← Reader.u16
  let _reserved ← Reader.u32
  let versionLength ← Reader.u32
  let r ← get
  let versionField ← Reader.take versionLength.toNat
  let (versionBytes, diagnostics) ←
    Wire.ofExcept (versionString strictness r.absolute versionField)
  let flags ← Reader.u16
  let streamCount ← Reader.u16
  return ({ majorVersion, minorVersion, versionBytes, flags, streamCount }, diagnostics)

def parseRegion (bytes : List UInt8) (base : Nat) (strictness : Strictness) : Read Metadata := do
  let (root, rootDiagnostics) ← readRoot strictness base
  let (streams, directoryDiagnostics) ←
    readDirectory strictness bytes base root.streamCount.toNat
  let (roles, rolesDiagnostics) ←
    Wire.ofExcept (assignStreams strictness base streams Roles.none)
  let (tables, diagnostics) ← Wire.ofExcept (parseTables strictness base roles.tableStream
    (rootDiagnostics ++ directoryDiagnostics ++ rolesDiagnostics))
  return {
    bytes
    base
    strictness
    diagnostics
    majorVersion := root.majorVersion
    minorVersion := root.minorVersion
    flags := root.flags
    versionBytes := root.versionBytes
    streams
    strings := roles.strings
    userStrings := roles.userStrings
    blobs := roles.blobs
    guids := roles.guids
    tables
    hasPdbStream := roles.hasPdbStream }

/-- Parses a metadata region that begins at absolute offset `base` in the input. -/
def parseAt (bytes : List UInt8) (base : Nat) (strictness : Strictness) : Result Metadata :=
  match (parseRegion bytes base strictness).run (Reader.new bytes base metadataContext) with
  | .ok m _ => .ok m
  | .error e _ => .error e

/-- Parses a metadata region in permissive mode. -/
def parse (bytes : List UInt8) : Result Metadata := parseAt bytes 0 .permissive

end Metadata

end Cildec
