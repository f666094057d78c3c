import Cildec.Lib.Segments
import Cildec.Metadata.Strict

/-!
# Writing a metadata region (ECMA-335 II.24.2.1)

The format, from the writer's side: the root with its version field, a directory of named
streams, and the bytes of the streams one after another. A `Region` carries what makes it
expressible: a version field that holds a NUL, names that hold none, and offsets, sizes and
counts that fit their fields. Nothing here is translated from the parser.
-/

namespace Cildec

open Wire

namespace Metadata

/-- A stream to be written. -/
structure NamedStream where
  name : List UInt8
  data : List UInt8
  deriving DecidableEq, Repr

/-- A name, the NUL that ends it and the padding to a multiple of four. -/
def paddedName (name : List UInt8) : List UInt8 :=
  name ++ List.replicate (nextMultipleOf4 (name.length + 1) - name.length) 0

/-- The directory entry of a stream that starts at an offset. -/
def entryBytes (entry : Nat × NamedStream) : List UInt8 :=
  leBytes 4 entry.1 ++ (leBytes 4 entry.2.data.length ++ paddedName entry.2.name)

/-- The directory entry of a stream, as it is read. -/
def headerOf (entry : Nat × NamedStream) : StreamHeader where
  nameBytes := entry.2.name
  offset := UInt32.ofNat entry.1
  size := UInt32.ofNat entry.2.data.length
  data := entry.2.data

/-- The size of the root and its directory. -/
def payloadStart (version : List UInt8) (streams : List NamedStream) : Nat :=
  20 + version.length + (streams.map fun s => 8 + nextMultipleOf4 (s.name.length + 1)).sum

/-- The streams with their offsets: after the directory, in order. -/
def placed (version : List UInt8) (streams : List NamedStream) : List (Nat × NamedStream) :=
  startsFrom (fun s => s.data.length) (payloadStart version streams) streams

/-- A metadata region to be written. -/
structure Region where
  majorVersion : UInt16
  minorVersion : UInt16
  reserved : UInt32
  version : List UInt8
  flags : UInt16
  streams : List NamedStream
  version_nul : 0 ∈ version
  version_fits : version.length < 2 ^ 32
  names_nulFree : ∀ s ∈ streams, 0 ∉ s.name
  streams_fit : streams.length < 2 ^ 16
  placed_fits : ∀ e ∈ placed version streams, e.1 < 2 ^ 32 ∧ e.2.data.length < 2 ^ 32

namespace Region

variable (g : Region)

/-- The streams with their offsets. -/
def entries : List (Nat × NamedStream) := placed g.version g.streams

/-- The root up to the directory. -/
def rootBytes : List UInt8 :=
  leBytes 4 metadataSignature.toNat ++ (leBytes 2 g.majorVersion.toNat ++
    (leBytes 2 g.minorVersion.toNat ++ (leBytes 4 g.reserved.toNat ++
      (leBytes 4 g.version.length ++ (g.version ++
        (leBytes 2 g.flags.toNat ++ leBytes 2 g.streams.length))))))

def directory : List UInt8 := g.entries.flatMap entryBytes

def payload : List UInt8 := g.streams.flatMap NamedStream.data

/-- The region. -/
def bytes : List UInt8 := g.rootBytes ++ (g.directory ++ g.payload)

/-- The stream directory. -/
def headers : List StreamHeader := g.entries.map headerOf

/-- The bytes of the first stream of a name, or none. -/
def dataOf (name : List UInt8) : List UInt8 :=
  ((g.streams.find? (·.name == name)).map NamedStream.data).getD []

/-- The first stream that has a name of the table stream, with its offset. -/
def tableEntry : Option (Nat × NamedStream) :=
  g.entries.find? fun e => e.2.name == tablesName || e.2.name == uncompressedName

/-- The root header, as it is read. -/
def root : Root where
  majorVersion := g.majorVersion
  minorVersion := g.minorVersion
  versionBytes := g.version.take (g.version.idxOf 0)
  flags := g.flags
  streamCount := UInt16.ofNat g.streams.length

/-! ## Where the streams stand -/

theorem paddedName_length (name : List UInt8) :
    (paddedName name).length = nextMultipleOf4 (name.length + 1) := by
  rw [paddedName, List.length_append, List.length_replicate, nextMultipleOf4]
  omega

theorem entryBytes_length (e : Nat × NamedStream) :
    (entryBytes e).length = 8 + nextMultipleOf4 (e.2.name.length + 1) := by
  rw [entryBytes, List.length_append, List.length_append, leBytes_length, leBytes_length,
    paddedName_length]
  omega

theorem rootBytes_length : g.rootBytes.length = 20 + g.version.length := by
  simp only [rootBytes, List.length_append, leBytes_length]
  omega

/-- The streams, without their offsets. -/
theorem entries_snd : g.entries.map Prod.snd = g.streams := startsFrom_snd

theorem directory_length : g.rootBytes.length + g.directory.length =
    payloadStart g.version g.streams := by
  have hsizes : (g.entries.map fun e => (entryBytes e).length) =
      g.streams.map fun s => 8 + nextMultipleOf4 (s.name.length + 1) := by
    conv_rhs => rw [← g.entries_snd, List.map_map]
    exact List.map_congr_left fun e _ => entryBytes_length e
  rw [rootBytes_length, directory, List.length_flatMap, hsizes, payloadStart]

theorem entries_length : g.entries.length = g.streams.length := by
  rw [← List.length_map (f := Prod.snd), entries_snd]

/-- The bytes of a stream stand at its offset. -/
theorem slice_entry {e : Nat × NamedStream} (he : e ∈ g.entries) :
    slice? g.bytes e.1 (e.1 + e.2.data.length) = some e.2.data := by
  obtain ⟨pre, post, hsplit, hoffset⟩ := startsFrom_split (f := NamedStream.data) he
  have hpre : (g.rootBytes ++ g.directory ++ pre).length = e.1 := by
    rw [List.length_append, List.length_append, directory_length, ← hoffset]
  have hslice := slice?_append (g.rootBytes ++ g.directory ++ pre) e.2.data post
  rw [hpre] at hslice
  rw [← hslice, bytes, payload, hsplit]
  simp only [List.append_assoc]

end Region

end Metadata

end Cildec
