import Cildec.Metadata.Strict
import Cildec.Tables.Safety

/-!
# What a region's parts take from it

The streams are ranges of the region, so that the heaps and the table stream of a parsed
region are no longer than it (`extent_of_parseAt`).
-/

namespace Cildec

open Wire

namespace Metadata

/-! ## The streams -/

/-- How many bytes of a declared range lie in the region. -/
theorem clamped_length (bytes : List UInt8) (offset size : UInt32) :
    ((slice? bytes (min offset.toNat bytes.length)
      (min (satAdd offset.toNat size.toNat) bytes.length)).getD []).length =
      min (offset.toNat + size.toNat) bytes.length - min offset.toNat bytes.length := by
  have hoffset := offset.toNat_lt
  have hsize := size.toNat_lt
  have hsum : satAdd offset.toNat size.toNat = offset.toNat + size.toNat := by
    rw [satAdd, usizeMax]
    omega
  rw [hsum]
  have hend : min offset.toNat bytes.length + (min (offset.toNat + size.toNat) bytes.length -
      min offset.toNat bytes.length) = min (offset.toNat + size.toNat) bytes.length := by
    omega
  have hslice := slice?_of_le (Nat.le_trans (Nat.le_of_eq hend) (Nat.min_le_right _ _))
  rw [hend] at hslice
  rw [hslice, Option.getD_some, List.length_take, List.length_drop]
  omega

/-- The bytes of a stream are those of its range that lie in the region. -/
theorem streamData_eq {strictness : Strictness} {bytes data : List UInt8} {base : Nat}
    {offset size : UInt32} {ds : List Diagnostic}
    (h : streamData strictness bytes base offset size = .ok (data, ds)) :
    data = (slice? bytes (min offset.toNat bytes.length)
      (min (satAdd offset.toNat size.toNat) bytes.length)).getD [] := by
  simp only [streamData] at h
  split at h
  · split at h
    · cases h
    · cases h
      rfl
  · cases h
    rfl

theorem streamData_length {strictness : Strictness} {bytes data : List UInt8} {base : Nat}
    {offset size : UInt32} {ds : List Diagnostic}
    (h : streamData strictness bytes base offset size = .ok (data, ds)) :
    data.length =
      min (offset.toNat + size.toNat) bytes.length - min offset.toNat bytes.length := by
  rw [streamData_eq h]
  exact clamped_length bytes offset size

/-- Every stream that is read has the bytes of its range. -/
theorem readDirectory_streamData {strictness : Strictness} {bytes : List UInt8} {base : Nat}
    (count : Nat) : ∀ {r r' : Reader} {x : List StreamHeader × List Diagnostic},
      (readDirectory strictness bytes base count).run r = .ok x r' →
        ∀ stream ∈ x.1, ∃ ds,
          streamData strictness bytes base stream.offset stream.size = .ok (stream.data, ds) := by
  induction count with
  | zero =>
      intro r r' x hrun stream hstream
      cases hrun
      cases hstream
  | succ count ih =>
      intro r r' x hrun stream hstream
      rcases readDirectory_ok_iff.mp hrun with ⟨_, _, rfl, _⟩ |
        ⟨_, first, rest, mid, hfirst, hrest, rfl⟩
      · cases hstream
      · rcases List.mem_cons.mp hstream with rfl | hstream
        · obtain ⟨name, extent, ds, data, dataDs, _, _, _, hdata, rfl, _⟩ :=
            readStream_ok_iff.mp hfirst
          exact ⟨dataDs, hdata⟩
        · exact ih hrest stream hstream

/-- A stream that is read is empty or lies where its offset says. -/
theorem readDirectory_data {strictness : Strictness} {bytes : List UInt8} {base count : Nat}
    {r r' : Reader} {x : List StreamHeader × List Diagnostic}
    (hrun : (readDirectory strictness bytes base count).run r = .ok x r') :
    ∀ stream ∈ x.1, stream.data.length = 0 ∨
      stream.offset.toNat + stream.data.length ≤ bytes.length := by
  intro stream hstream
  obtain ⟨ds, hdata⟩ := readDirectory_streamData count hrun stream hstream
  have hlength := streamData_length hdata
  omega

/-- The table stream that is found is one of the streams. -/
theorem tableStream_mem {strictness : Strictness} {base : Nat} {streams : List StreamHeader}
    {x : Roles × List Diagnostic} {found : List UInt8 × Nat × Bool}
    (hok : assignStreams strictness base streams Roles.none = .ok x)
    (hfound : x.1.tableStream = some found) :
    ∃ stream ∈ streams, stream.tableRole base = found := by
  rw [assignStreams_tableStream streams hok fun _ => ⟨List.not_mem_nil, List.not_mem_nil⟩] at hfound
  obtain ⟨stream, hfind, hrole⟩ := Option.map_eq_some_iff.mp hfound
  exact ⟨stream, List.mem_of_find?_eq_some hfind, hrole⟩

/-- A heap of a name is empty or one of the streams. -/
theorem span_of_streams (span : Roles → Span) (name : List UInt8)
    (hassign : ∀ roles stream streamBase, span (roles.assign stream streamBase) =
      if stream.nameBytes = name then ⟨stream.data, streamBase⟩ else span roles)
    (hnone : span Roles.none = Span.empty) {strictness : Strictness} {base n : Nat}
    {streams : List StreamHeader} {x : Roles × List Diagnostic}
    (hok : assignStreams strictness base streams Roles.none = .ok x)
    (hstreams : ∀ stream ∈ streams, stream.data.length ≤ n) : (span x.1).data.length ≤ n := by
  rw [assignStreams_field hassign streams hok,
    if_neg (show name ∉ Roles.none.seen from List.not_mem_nil), hnone]
  cases hfind : streams.find? (·.nameBytes == name) with
  | none => exact Nat.zero_le n
  | some stream => exact hstreams stream (List.mem_of_find?_eq_some hfind)

/-! ## The region -/

/-- The root and the heaps that names come from are within so many bytes, and so is the table
stream. -/
structure Extent (n : Nat) (strictness : Strictness) (m : Metadata) : Prop where
  root : 20 ≤ n
  strings : m.strings.span.data.length ≤ n
  blobs : m.blobs.span.data.length ≤ n
  tables : m.tables = Tables.empty ∨ ∃ data base uncompressed ds ds', data.length ≤ n ∧
    Tables.parse data base uncompressed strictness ds = .ok (m.tables, ds')

theorem extent_of_parseAt {bytes : List UInt8} {base : Nat} {strictness : Strictness}
    {m : Metadata} (hparse : parseAt bytes base strictness = .ok m) :
    Extent bytes.length strictness m := by
  obtain ⟨root, r1, directory, r2, roles, tables, hroot, hdirectory, hroles, htables, rfl⟩ :=
    parseAt_ok_iff.mp hparse
  have hstreams : ∀ stream ∈ directory.1, stream.data.length ≤ bytes.length := by
    intro stream hmem
    have := readDirectory_data hdirectory stream hmem
    omega
  refine ⟨?_, ?_, ?_, ?_⟩
  · have := (readRoot_ok_iff.mp hroot).1
    omega
  · refine span_of_streams (fun roles => roles.strings.span) stringsName ?_ rfl hroles hstreams
    intro roles stream streamBase
    rw [assign_strings, apply_ite StringsHeap.span]
    rfl
  · refine span_of_streams (fun roles => roles.blobs.span) blobName ?_ rfl hroles hstreams
    intro roles stream streamBase
    rw [assign_blobs, apply_ite BlobHeap.span]
    rfl
  · show tables.1 = Tables.empty ∨ _
    cases hfound : roles.1.tableStream with
    | none =>
        rw [hfound, parseTables] at htables
        obtain ⟨_, htables⟩ := error_if_ok_iff.mp htables
        cases htables
        exact .inl rfl
    | some found =>
        obtain ⟨stream, hmem, rfl⟩ := tableStream_mem hroles hfound
        rw [hfound] at htables
        exact .inr ⟨_, _, _, _, _, hstreams stream hmem, htables⟩

/-- No table has more rows than there are bytes. -/
theorem Extent.rowCount_le {n : Nat} {strictness : Strictness} {m : Metadata}
    (h : Extent n strictness m) (table : TableId) : m.tables.rowCount table ≤ n := by
  rcases h.tables with hempty | ⟨data, _, _, _, _, hdata, htables⟩
  · rw [hempty]
    exact Nat.zero_le n
  · obtain ⟨⟨rfl, _, hl⟩, _⟩ := Tables.parse_spec htables
    have hseg := offsetOf_add_size_le (fun u => (m.tables.layout u).byteSize)
      (TableId.mem_all table)
    have hends := hl.ends
    have hrows : m.tables.rowCount table ≤ (m.tables.layout table).byteSize :=
      Nat.le_mul_of_pos_right _ (hl.rowSize_pos table)
    omega

end Metadata

end Cildec
