import Cildec.Metadata.Encode

/-!
# The metadata root decodes what was encoded (`src/metadata.rs`)

Each part of the parser is run on the bytes the encoder writes for it: the root, the
directory entry by entry, and the roles of the streams. In strict mode the same runs go
through when no name repeats or is too long.

* `Region.parseAt_bytes`: permissive mode reads the region back;
* `metadata_decodes_encoded`: so does strict mode, where it is asked to.
-/

namespace Cildec

open Wire

namespace Metadata

/-! ## Names and version fields -/

/-- The first NUL of a field that holds one. -/
theorem idxOf?_of_mem {field : List UInt8} (h : 0 ∈ field) :
    field.idxOf? 0 = some (field.idxOf 0) := by
  induction field with
  | nil => cases h
  | cons b tl ih =>
      rw [List.idxOf?_cons, List.idxOf_cons]
      by_cases hb : b = 0
      · simp [hb]
      · have hmem : 0 ∈ tl := by
          rcases List.mem_cons.mp h with h0 | htl
          · exact absurd h0.symm hb
          · exact htl
        have hbeq : (b == 0) = false := beq_eq_false_iff_ne.mpr hb
        simp [hbeq, ih hmem]

/-- A name without a NUL ends at the one that follows it. -/
theorem idxOf?_after {name : List UInt8} (h : 0 ∉ name) (tl : List UInt8) :
    (name ++ 0 :: tl).idxOf? 0 = some name.length := by
  induction name with
  | nil => rfl
  | cons b bs ih =>
      rw [List.mem_cons, not_or] at h
      rw [List.cons_append, List.idxOf?_cons, ih h.2]
      simp [Ne.symm h.1]

/-- The padding starts with the NUL. -/
theorem paddedName_append (name tl : List UInt8) :
    ∃ pad, paddedName name ++ tl = name ++ 0 :: pad := by
  have hpos : 0 < nextMultipleOf4 (name.length + 1) - name.length := by
    rw [nextMultipleOf4]
    omega
  obtain ⟨n, hn⟩ := Nat.exists_eq_succ_of_ne_zero (Nat.ne_of_gt hpos)
  refine ⟨List.replicate n 0 ++ tl, ?_⟩
  rw [paddedName, hn, List.replicate_succ, List.append_assoc]
  rfl

/-- A padded name is read with its padding. -/
theorem streamName_padded {name : List UInt8} (h : 0 ∉ name) (strictness : Strictness)
    (nameAt : Nat) (tl : List UInt8) :
    streamName strictness nameAt (paddedName name ++ tl) =
      .ok (name, nextMultipleOf4 (name.length + 1), []) := by
  obtain ⟨pad, hpad⟩ := paddedName_append name tl
  rw [hpad, streamName, idxOf?_after h]
  simp only [List.take_left]

/-! ## The root -/

/-- The root is read back. -/
theorem Region.decodes_root (g : Region) (strictness : Strictness) (base : Nat)
    (tl : List UInt8) :
    Decodes (fun _ => True) (readRoot strictness base) g.rootBytes (g.root, []) tl := by
  have hversion : (UInt32.ofNat g.version.length).toNat = g.version.length :=
    UInt32.toNat_ofNat_of_lt' g.version_fits
  have hcount : (UInt16.ofNat g.streams.length).toNat = g.streams.length :=
    UInt16.toNat_ofNat_of_lt' g.streams_fit
  unfold readRoot Region.rootBytes
  refine Decodes.seq (Reader.decodes_u32 _ metadataSignature _) ?_
  refine Decodes.ofExcept_bind (show checkSignature base metadataSignature = .ok () by
    rw [checkSignature, if_neg (not_not.mpr rfl)]) ?_
  refine Decodes.seq (Reader.decodes_u16 _ g.majorVersion _) ?_
  refine Decodes.seq (Reader.decodes_u16 _ g.minorVersion _) ?_
  refine Decodes.seq (Reader.decodes_u32 _ g.reserved _) ?_
  have hlength := Reader.decodes_u32 (fun _ => True) (UInt32.ofNat g.version.length)
  rw [hversion] at hlength
  refine Decodes.seq (hlength _) ?_
  refine Decodes.get_bind fun r _ _ => ?_
  rw [hversion]
  refine Decodes.seq (Reader.decodes_take _ g.version _) ?_
  have hfield : versionString strictness r.absolute g.version =
      .ok (g.version.take (g.version.idxOf 0), []) := by
    rw [versionString, idxOf?_of_mem g.version_nul]
  refine Decodes.ofExcept_bind hfield ?_
  refine Decodes.seq (Reader.decodes_u16 _ g.flags _) ?_
  have hstreams := Reader.decodes_u16 (fun _ => True) (UInt16.ofNat g.streams.length) tl
  rw [hcount] at hstreams
  exact hstreams.map _

/-! ## The directory -/

/-- An entry whose fields fit and whose stream stands in `bytes`. -/
structure Placed (bytes : List UInt8) (e : Nat × NamedStream) : Prop where
  nulFree : 0 ∉ e.2.name
  offset_fits : e.1 < 2 ^ 32
  size_fits : e.2.data.length < 2 ^ 32
  slice : slice? bytes e.1 (e.1 + e.2.data.length) = some e.2.data

theorem Region.placed (g : Region) : ∀ e ∈ g.entries, Placed g.bytes e := by
  intro e he
  obtain ⟨hoffset, hsize⟩ := g.placed_fits e he
  exact ⟨g.names_nulFree e.2 (startsFrom_mem he), hoffset, hsize, g.slice_entry he⟩

/-- The stream of a placed entry lies in the region. -/
theorem Placed.streamData {bytes : List UInt8} {e : Nat × NamedStream} (he : Placed bytes e)
    (strictness : Strictness) (base : Nat) :
    streamData strictness bytes base (headerOf e).offset (headerOf e).size =
      .ok (e.2.data, []) := by
  have hoffset : (headerOf e).offset.toNat = e.1 := UInt32.toNat_ofNat_of_lt' he.offset_fits
  have hsize : (headerOf e).size.toNat = e.2.data.length :=
    UInt32.toNat_ofNat_of_lt' he.size_fits
  have hend := (slice?_eq_some_iff.mp he.slice).1.2
  have hoffset_fits := he.offset_fits
  have hsize_fits := he.size_fits
  have hsum : satAdd e.1 e.2.data.length = e.1 + e.2.data.length := by
    rw [satAdd, Nat.min_eq_left]
    show _ ≤ 2 ^ 64 - 1
    omega
  unfold Metadata.streamData
  simp only [hoffset, hsize, hsum, Nat.min_eq_left hend,
    Nat.min_eq_left (Nat.le_of_add_right_le hend), he.slice, Option.getD_some]
  exact if_neg (not_not.mpr rfl)

/-- One entry is read back, after its offset and size. -/
theorem readStream_placed {bytes : List UInt8} {e : Nat × NamedStream} (he : Placed bytes e)
    {strictness : Strictness} (hname : strictness.isStrict = true → e.2.name.length ≤ 32)
    (base : Nat) {r : Reader} {tl : List UInt8} (hrest : r.rest = paddedName e.2.name ++ tl) :
    ∃ r', (readStream strictness bytes base (headerOf e).offset (headerOf e).size).run r =
      .ok (headerOf e, []) r' ∧ r'.rest = tl := by
  have hadvance : nextMultipleOf4 (e.2.name.length + 1) = (paddedName e.2.name).length :=
    (Region.paddedName_length _).symm
  -- the padding is there, so the cursor stays inside the bytes
  have hle : r.pos + nextMultipleOf4 (e.2.name.length + 1) ≤ r.data.length := by
    have hremaining := Reader.remaining_of_rest hrest
    have hpos := r.pos_le
    rw [Reader.remaining] at hremaining
    omega
  have hcheck : checkNameLength strictness r.absolute e.2.name = .ok () := by
    refine if_neg ?_
    rintro ⟨hlong, hstrict⟩
    exact absurd (hname hstrict) (Nat.not_le.mpr hlong)
  refine ⟨r.moveTo (r.pos + nextMultipleOf4 (e.2.name.length + 1)), ?_, ?_⟩
  · refine readStream_ok_iff.mpr ⟨e.2.name, _, [], e.2.data, [], ?_, hcheck, hle,
      he.streamData strictness base, rfl, rfl⟩
    rw [hrest]
    exact streamName_padded he.nulFree strictness _ tl
  · rw [Reader.moveTo_rest hle, ← List.drop_drop]
    show r.rest.drop _ = tl
    rw [hrest, hadvance, List.drop_left]

/-- The directory is read back, entry by entry. -/
theorem readDirectory_placed {bytes : List UInt8} (strictness : Strictness) (base : Nat)
    (es : List (Nat × NamedStream)) (hes : ∀ e ∈ es, Placed bytes e)
    (hnames : strictness.isStrict = true → ∀ e ∈ es, e.2.name.length ≤ 32) (tl : List UInt8) :
    ∀ {r : Reader}, r.rest = es.flatMap entryBytes ++ tl →
      ∃ r', (readDirectory strictness bytes base es.length).run r =
        .ok (es.map headerOf, []) r' := by
  induction es with
  | nil =>
      intro r _
      exact ⟨r, rfl⟩
  | cons e es ih =>
      intro r hrest
      rw [List.forall_mem_cons] at hes
      have hrest : r.rest = leBytes 4 e.1 ++ (leBytes 4 e.2.data.length ++
          (paddedName e.2.name ++ (es.flatMap entryBytes ++ tl))) := by
        rw [hrest, List.flatMap_cons, entryBytes]
        simp only [List.append_assoc]
      have hdrop4 : r.rest.drop 4 = leBytes 4 e.2.data.length ++
          (paddedName e.2.name ++ (es.flatMap entryBytes ++ tl)) := by
        rw [hrest, List.drop_left' (leBytes_length _ _)]
      have hdrop8 : r.rest.drop 8 = paddedName e.2.name ++ (es.flatMap entryBytes ++ tl) := by
        rw [show 8 = 4 + 4 from rfl, ← List.drop_drop, hdrop4,
          List.drop_left' (leBytes_length _ _)]
      have hoffset : leNat (r.rest.take 4) = e.1 := by
        rw [hrest, List.take_left' (leBytes_length _ _), leNat_leBytes hes.1.offset_fits]
      have hsize : leNat ((r.rest.drop 4).take 4) = e.2.data.length := by
        rw [hdrop4, List.take_left' (leBytes_length _ _), leNat_leBytes hes.1.size_fits]
      have h8 : 8 ≤ r.remaining := by
        have hlen := Reader.remaining_of_rest hrest
        rw [List.length_append, leBytes_length, leBytes_length] at hlen
        omega
      have hadvance : (r.advance 8).rest = paddedName e.2.name ++ (es.flatMap entryBytes ++ tl) :=
        (Cursor.rest_advance 8 r).trans hdrop8
      obtain ⟨mid, hstream, hmid⟩ := readStream_placed hes.1
        (fun hstrict => hnames hstrict e List.mem_cons_self) base hadvance
      obtain ⟨r', hdirectory⟩ := ih hes.2
        (fun hstrict x hx => hnames hstrict x (List.mem_cons_of_mem _ hx)) hmid
      refine ⟨r', readDirectory_ok_iff.mpr (.inr ⟨h8, (headerOf e, []), (es.map headerOf, []), mid,
        ?_, hdirectory, rfl⟩)⟩
      rw [hoffset, hsize]
      exact hstream

/-! ## The region -/

/-- One stream by name. -/
def stream (m : Metadata) (name : List UInt8) : Option StreamHeader :=
  m.streams.find? (·.nameBytes == name)

/-- A stream that can be parsed as the table stream of the format its name says, at the offset
it has. -/
def TablesAcceptable (base : Nat) (strictness : Strictness) (e : Nat × NamedStream) : Prop :=
  ∃ x, Tables.parse e.2.data (satAdd base e.1) (e.2.name == uncompressedName) strictness [] = .ok x

/-- `m` is what `g` says: its root, its streams in order, the heaps by the names of their
streams and the tables of the first stream that has a name of theirs. -/
structure Region.DecodedAs (g : Region) (base : Nat) (m : Metadata) : Prop where
  majorVersion : m.majorVersion = g.majorVersion
  minorVersion : m.minorVersion = g.minorVersion
  flags : m.flags = g.flags
  versionBytes : m.versionBytes = g.version.take (g.version.idxOf 0)
  streams : m.streams = g.headers
  strings : m.strings.span.data = g.dataOf stringsName
  userStrings : m.userStrings.span.data = g.dataOf userStringsName
  blobs : m.blobs.span.data = g.dataOf blobName
  guids : m.guids.span.data = g.dataOf guidName
  tables : ∀ e, g.tableEntry = some e → ∃ ds, Tables.parse e.2.data (satAdd base e.1)
    (e.2.name == uncompressedName) .permissive [] = .ok (m.tables, ds)
  format : ∀ e, g.tableEntry = some e →
    m.tables.uncompressed = (e.2.name == uncompressedName)
  noTables : g.tableEntry = none → m.tables = Tables.empty

/-- The names and the bytes of the directory that is read are those of the streams. -/
theorem Region.headers_map (g : Region) :
    g.headers.map (fun h => NamedStream.mk h.nameBytes h.data) = g.streams := by
  rw [headers, List.map_map]
  exact (List.map_congr_left fun e _ => rfl).trans g.entries_snd

/-- The first stream of a name, as it is read and as it was written. -/
theorem Region.find_headers (g : Region) (name : List UInt8) :
    ((g.headers.find? (·.nameBytes == name)).map StreamHeader.data).getD [] = g.dataOf name := by
  rw [dataOf, ← g.headers_map, List.find?_map, Option.map_map]
  rfl

/-- A heap after the loop over the streams: that of the first stream of its name. -/
theorem heap_data (heap : Roles → Span) {name : List UInt8}
    (hassign : ∀ roles stream streamBase, heap (roles.assign stream streamBase) =
      if stream.nameBytes = name then ⟨stream.data, streamBase⟩ else heap roles)
    (hnone : (heap Roles.none).data = []) {strictness : Strictness} {base : Nat} {g : Region}
    {x : Roles × List Diagnostic}
    (hok : assignStreams strictness base g.headers Roles.none = .ok x) :
    (heap x.1).data = g.dataOf name := by
  have hseen : name ∉ Roles.none.seen := List.not_mem_nil
  rw [assignStreams_field hassign g.headers hok, if_neg hseen, ← g.find_headers]
  cases g.headers.find? (·.nameBytes == name) with
  | none => exact hnone
  | some stream => rfl

/-- The table stream after the loop over the streams. -/
theorem tableStream_data {strictness : Strictness} {base : Nat} {g : Region}
    {x : Roles × List Diagnostic}
    (hok : assignStreams strictness base g.headers Roles.none = .ok x) :
    x.1.tableStream = g.tableEntry.map fun e =>
      (e.2.data, satAdd base e.1, e.2.name == uncompressedName) := by
  rw [assignStreams_tableStream g.headers hok fun _ => ⟨List.not_mem_nil, List.not_mem_nil⟩,
    Region.headers, List.find?_map, Region.tableEntry]
  show Option.map _ (Option.map headerOf (g.entries.find? _)) = _
  cases hfind : g.entries.find? (StreamHeader.isTables ∘ headerOf) with
  | none =>
      rw [show (StreamHeader.isTables ∘ headerOf) = fun e : Nat × NamedStream =>
        e.2.name == tablesName || e.2.name == uncompressedName from rfl] at hfind
      rw [hfind]
      rfl
  | some e =>
      have hoffset := (g.placed e (List.mem_of_find?_eq_some hfind)).offset_fits
      rw [show (StreamHeader.isTables ∘ headerOf) = fun e : Nat × NamedStream =>
        e.2.name == tablesName || e.2.name == uncompressedName from rfl] at hfind
      rw [hfind]
      simp only [Option.map_some, StreamHeader.tableRole, headerOf,
        UInt32.toNat_ofNat_of_lt' hoffset]

/-- The region its parts make up, in either mode: the root and the directory are read, and the
streams have their roles. What is left is the table stream. -/
theorem Region.decodedAs (g : Region) {base : Nat} {strictness : Strictness}
    {roles : Roles × List Diagnostic} {tables : Tables × List Diagnostic}
    (hroles : assignStreams .permissive base g.headers Roles.none = .ok roles)
    (htables : parseTables .permissive base roles.1.tableStream roles.2 = .ok tables) :
    g.DecodedAs base
      (assemble g.bytes base strictness g.root g.headers roles.1 tables) := by
  have hstream := tableStream_data hroles
  refine ⟨rfl, rfl, rfl, rfl, rfl, ?_, ?_, ?_, ?_, ?_, ?_, ?_⟩
  · refine heap_data (fun r => r.strings.span) (fun roles stream streamBase => ?_) rfl hroles
    rw [assign_strings]
    split <;> rfl
  · refine heap_data (fun r => r.userStrings.span) (fun roles stream streamBase => ?_) rfl hroles
    rw [assign_userStrings]
    split <;> rfl
  · refine heap_data (fun r => r.blobs.span) (fun roles stream streamBase => ?_) rfl hroles
    rw [assign_blobs]
    split <;> rfl
  · refine heap_data (fun r => r.guids.span) (fun roles stream streamBase => ?_) rfl hroles
    rw [assign_guids]
    split <;> rfl
  · intro e he
    rw [he] at hstream
    rw [hstream, ← logged_nil roles.2] at htables
    obtain ⟨x, hx, rfl⟩ := (parseTables_appends base .permissive _).ok_iff.mp htables
    exact ⟨x.2, hx⟩
  · intro e he
    rw [he] at hstream
    rw [hstream] at htables
    exact Tables.parse_uncompressed htables
  · intro hnone
    rw [hnone] at hstream
    rw [hstream] at htables
    cases htables
    rfl

/-- The parts of a region are read in either mode, when strict mode finds no long name. -/
theorem Region.read_parts (g : Region) (strictness : Strictness) (base : Nat)
    (hnames : strictness.isStrict = true → ∀ s ∈ g.streams, s.name.length ≤ 32) :
    ∃ r1 r2, (readRoot strictness base).run (Reader.new g.bytes base metadataContext) =
        .ok (g.root, []) r1 ∧
      (readDirectory strictness g.bytes base g.root.streamCount.toNat).run r1 =
        .ok (g.headers, []) r2 := by
  have hroot := g.decodes_root strictness base (g.directory ++ g.payload)
    (Reader.new g.bytes base metadataContext) trivial (Reader.rest_new _ _ _)
  have hrest : (Wire.advance g.rootBytes.length (Reader.new g.bytes base metadataContext)).rest =
      g.entries.flatMap entryBytes ++ g.payload := by
    refine rest_advance_of_append (s := Reader.new g.bytes base metadataContext) ?_
    exact Reader.rest_new _ _ _
  have hcount : g.root.streamCount.toNat = g.entries.length := by
    rw [entries_length]
    exact UInt16.toNat_ofNat_of_lt' g.streams_fit
  obtain ⟨r2, hdirectory⟩ := readDirectory_placed strictness base g.entries g.placed
    (fun hstrict e he => hnames hstrict e.2 (startsFrom_mem he)) g.payload hrest
  refine ⟨_, r2, hroot, ?_⟩
  rw [hcount]
  exact hdirectory

/-- Permissive mode reads the region back, when its table stream is acceptable. -/
theorem Region.parseAt_bytes (g : Region) (base : Nat)
    (htables : ∀ e, g.tableEntry = some e → TablesAcceptable base .permissive e) :
    ∃ m, parseAt g.bytes base .permissive = .ok m ∧ g.DecodedAs base m := by
  obtain ⟨r1, r2, hroot, hdirectory⟩ := g.read_parts .permissive base (by
    intro hstrict
    cases hstrict)
  obtain ⟨roles, hroles⟩ := exists_assignStreams base g.headers Roles.none
  obtain ⟨tables, htables⟩ : ∃ x, parseTables .permissive base roles.1.tableStream roles.2 = .ok x := by
    rw [tableStream_data hroles, ← logged_nil roles.2]
    cases hentry : g.tableEntry with
    | none => exact ⟨_, rfl⟩
    | some e =>
        obtain ⟨x, hx⟩ := htables e hentry
        exact ⟨_, (parseTables_appends base .permissive _).ok_iff.mpr ⟨x, hx, rfl⟩⟩
  exact ⟨_, parseAt_ok_iff.mpr ⟨(g.root, []), r1, (g.headers, []), r2, roles, tables, hroot,
    hdirectory, hroles, htables, rfl⟩, g.decodedAs hroles htables⟩

/-- Strict mode reads the region back, when its names are different and short and it has a
table stream without a deviation. -/
theorem Region.parseAt_bytes_strict (g : Region) (base : Nat)
    (hdistinct : (g.streams.map NamedStream.name).Nodup)
    (hnames : ∀ s ∈ g.streams, s.name.length ≤ 32) {e : Nat × NamedStream}
    (hentry : g.tableEntry = some e) (htables : TablesAcceptable base .strict e) :
    ∃ m, parseAt g.bytes base .strict = .ok m := by
  obtain ⟨r1, r2, hroot, hdirectory⟩ := g.read_parts .strict base fun _ => hnames
  have hheaders : g.headers.map StreamHeader.nameBytes = g.streams.map NamedStream.name := by
    rw [← g.headers_map, List.map_map]
    rfl
  obtain ⟨roles, hroles⟩ := assignStreams_distinct .strict base g.headers Roles.none
    (hheaders ▸ hdistinct) fun _ _ => List.not_mem_nil
  obtain ⟨x, hx⟩ := htables
  refine ⟨_, parseAt_ok_iff.mpr ⟨(g.root, []), r1, (g.headers, []), r2, (roles, []), x, hroot,
    hdirectory, hroles, ?_, rfl⟩⟩
  rw [tableStream_data hroles, hentry]
  exact hx

/-- The region decodes what was encoded: permissive mode reads every region whose table
stream is acceptable, and a stream that is looked up by the name of a heap holds the bytes of
that heap. Where the names are different and short and there is a table stream that strict
mode accepts, strict mode reads the same. -/
theorem metadata_decodes_encoded (g : Region) (base : Nat)
    (htables : ∀ e, g.tableEntry = some e → TablesAcceptable base .permissive e) :
    ∃ m, parseAt g.bytes base .permissive = .ok m ∧ g.DecodedAs base m ∧
      m.streams.map (fun h => NamedStream.mk h.nameBytes h.data) = g.streams ∧
      (m.strings.span.data = ((m.stream stringsName).map StreamHeader.data).getD [] ∧
        m.userStrings.span.data = ((m.stream userStringsName).map StreamHeader.data).getD [] ∧
        m.blobs.span.data = ((m.stream blobName).map StreamHeader.data).getD [] ∧
        m.guids.span.data = ((m.stream guidName).map StreamHeader.data).getD []) ∧
      ((g.streams.map NamedStream.name).Nodup → (∀ s ∈ g.streams, s.name.length ≤ 32) →
        (∃ e, g.tableEntry = some e ∧ TablesAcceptable base .strict e) →
        parseAt g.bytes base .strict = .ok { m with strictness := .strict }) := by
  obtain ⟨m, hparse, hdecoded⟩ := g.parseAt_bytes base htables
  have hfind (name : List UInt8) :
      ((m.stream name).map StreamHeader.data).getD [] = g.dataOf name := by
    rw [stream, hdecoded.streams, g.find_headers]
  refine ⟨m, hparse, hdecoded, ?_, ⟨?_, ?_, ?_, ?_⟩, ?_⟩
  · rw [hdecoded.streams, g.headers_map]
  · rw [hfind, hdecoded.strings]
  · rw [hfind, hdecoded.userStrings]
  · rw [hfind, hdecoded.blobs]
  · rw [hfind, hdecoded.guids]
  · rintro hdistinct hnames ⟨e, hentry, hstrict⟩
    obtain ⟨m', hm'⟩ := g.parseAt_bytes_strict base hdistinct hnames hentry hstrict
    have hup := parseAt_up hm'
    rw [hparse] at hup
    cases hup
    obtain ⟨_, _, _, _, _, _, _, _, _, _, rfl⟩ := parseAt_ok_iff.mp hm'
    exact hm'

/-- A region with an empty table stream and a heap of one string. -/
def minimalRegion : Region where
  majorVersion := 1
  minorVersion := 1
  reserved := 0
  version := [0x76, 0x34, 0x00, 0x00]
  flags := 0
  streams := [⟨tablesName, List.replicate 24 0⟩, ⟨stringsName, [0x00, 0x6F, 0x6B, 0x00]⟩]
  version_nul := by decide
  version_fits := by decide
  names_nulFree := by decide
  streams_fit := by decide
  placed_fits := by decide

theorem metadata_decodes_minimal :
    ∃ m, parseAt minimalRegion.bytes 0 .permissive = .ok m ∧
      m.strings.span.data = [0x00, 0x6F, 0x6B, 0x00] ∧
      parseAt minimalRegion.bytes 0 .strict = .ok { m with strictness := .strict } := by
  have hentry : minimalRegion.tableEntry = some (56, ⟨tablesName, List.replicate 24 0⟩) := by
    decide
  have hacceptable (strictness : Strictness) :
      TablesAcceptable 0 strictness (56, ⟨tablesName, List.replicate 24 0⟩) := by
    have hok : (Tables.parse (List.replicate 24 0) 56 false strictness []).isOk := by
      cases strictness <;> decide +kernel
    exact exists_ok_of_isOk hok
  obtain ⟨m, hparse, hdecoded, _, _, hstrict⟩ := metadata_decodes_encoded minimalRegion 0 (by
    intro e he
    rw [hentry] at he
    cases he
    exact hacceptable .permissive)
  exact ⟨m, hparse, hdecoded.strings,
    hstrict (by decide) (by decide) ⟨_, hentry, hacceptable .strict⟩⟩

end Metadata

end Cildec
