import Cildec.Heaps.Tiling
import Cildec.Heaps.Tokens
import Cildec.Lib.Window
import Cildec.Metadata.Extent
import Cildec.Metadata.Roles
import Cildec.Pe.Pipeline

/-!
# Where the decoded bytes stand in the file

Every heap and the table stream record an absolute offset, and an accessor hands out a part of
a part of the file. Followed back through the windows, the offsets are true: what is decoded
are the bytes of the file at the place the offset names.

* `Metadata.parseAt_liesIn`: the heaps and the table stream are windows into the file;
* `decoded_lies_in_file`: so are the strings, blobs, GUIDs, user strings, rows and method
  bodies that are handed out.
-/

namespace Cildec

open Wire

/-- The bytes of a span are those of the file at its base. -/
structure Span.LiesIn (s : Span) (file : List UInt8) : Prop where
  window : Window file s.base s.data
  fits : s.data = [] ∨ s.base + s.data.length ≤ usizeMax

namespace Metadata

theorem streamData_window {strictness : Strictness} {bytes data : List UInt8} {base : Nat}
    {offset size : UInt32} {ds : List Diagnostic}
    (h : streamData strictness bytes base offset size = .ok (data, ds)) :
    Window bytes offset.toNat data := by
  rw [streamData_eq h]
  cases hslice : slice? bytes (min offset.toNat bytes.length)
      (min (satAdd offset.toNat size.toNat) bytes.length) with
  | none => exact Window.nil _ _
  | some part =>
      rw [Option.getD_some]
      rcases Nat.le_total offset.toNat bytes.length with hle | hle
      · rw [Nat.min_eq_left hle] at hslice
        exact Window.of_slice? hslice
      · -- a stream that starts after the region has no bytes
        obtain ⟨_, rfl⟩ := slice?_eq_some_iff.mp hslice
        left
        rw [Nat.min_eq_right hle, List.drop_length, List.take_nil]

/-- A stream of a region that lies in the file. -/
theorem stream_liesIn {file region : List UInt8} {base : Nat} (hregion : Window file base region)
    (hfits : base + region.length ≤ usizeMax) {stream : StreamHeader}
    (hstream : Window region stream.offset.toNat stream.data) :
    Span.LiesIn ⟨stream.data, satAdd base stream.offset.toNat⟩ file := by
  by_cases hempty : stream.data = []
  · exact ⟨.inl hempty, .inl hempty⟩
  · have hends := hstream.ends hempty
    have hsat : satAdd base stream.offset.toNat = base + stream.offset.toNat :=
      Nat.min_eq_left (by omega)
    rw [hsat]
    refine ⟨hregion.trans hstream, .inr ?_⟩
    show base + stream.offset.toNat + stream.data.length ≤ usizeMax
    omega

theorem empty_liesIn (file : List UInt8) : Span.LiesIn Span.empty file :=
  ⟨Window.nil _ _, .inl rfl⟩

/-- A heap after the loop over the streams. -/
theorem heap_liesIn (heap : Roles → Span) (name : List UInt8)
    (hassign : ∀ roles stream streamBase, heap (roles.assign stream streamBase) =
      if stream.nameBytes = name then ⟨stream.data, streamBase⟩ else heap roles)
    (hnone : heap Roles.none = Span.empty) {file : List UInt8} {strictness : Strictness}
    {base : Nat} {streams : List StreamHeader} {x : Roles × List Diagnostic}
    (hok : assignStreams strictness base streams Roles.none = .ok x)
    (hstreams : ∀ stream ∈ streams,
      Span.LiesIn ⟨stream.data, satAdd base stream.offset.toNat⟩ file) :
    (heap x.1).LiesIn file := by
  have hseen : name ∉ Roles.none.seen := List.not_mem_nil
  rw [assignStreams_field hassign streams hok, if_neg hseen]
  cases hfind : streams.find? (·.nameBytes == name) with
  | none =>
      rw [Option.map_none, Option.getD_none, hnone]
      exact empty_liesIn file
  | some stream => exact hstreams stream (List.mem_of_find?_eq_some hfind)

/-- The table stream that is parsed. -/
theorem tables_liesIn {file : List UInt8} {strictness : Strictness} {base : Nat}
    {streams : List StreamHeader} {roles : Roles × List Diagnostic} {ds : List Diagnostic}
    {tables : Tables × List Diagnostic}
    (hroles : assignStreams strictness base streams Roles.none = .ok roles)
    (htables : parseTables strictness base roles.1.tableStream ds = .ok tables)
    (hstreams : ∀ stream ∈ streams,
      Span.LiesIn ⟨stream.data, satAdd base stream.offset.toNat⟩ file) :
    Span.LiesIn ⟨tables.1.data, tables.1.base⟩ file := by
  have hstream := assignStreams_tableStream streams hroles
    fun _ => ⟨List.not_mem_nil, List.not_mem_nil⟩
  cases hfind : streams.find? StreamHeader.isTables with
  | none =>
      rw [hfind] at hstream
      rw [hstream] at htables
      cases strictness with
      | strict => cases htables
      | permissive =>
          cases htables
          exact empty_liesIn file
  | some stream =>
      rw [hfind] at hstream
      rw [hstream] at htables
      obtain ⟨⟨hdata, hbase, _⟩, _⟩ := Tables.parse_spec htables
      rw [hdata, hbase]
      exact hstreams stream (List.mem_of_find?_eq_some hfind)

/-- The heaps and the table stream of a region are windows into the file. -/
structure LiesIn (m : Metadata) (file : List UInt8) : Prop where
  strings : m.strings.span.LiesIn file
  userStrings : m.userStrings.span.LiesIn file
  blobs : m.blobs.span.LiesIn file
  guids : m.guids.span.LiesIn file
  tables : Span.LiesIn ⟨m.tables.data, m.tables.base⟩ file

theorem parseAt_liesIn {file region : List UInt8} {base : Nat} {strictness : Strictness}
    {m : Metadata} (h : parseAt region base strictness = .ok m)
    (hregion : Window file base region) (hfits : base + region.length ≤ usizeMax) :
    m.LiesIn file := by
  obtain ⟨root, r1, directory, r2, roles, tables, _, hdirectory, hroles, htables, rfl⟩ :=
    parseAt_ok_iff.mp h
  have hstreams : ∀ stream ∈ directory.1,
      Span.LiesIn ⟨stream.data, satAdd base stream.offset.toNat⟩ file := by
    intro stream hstream
    obtain ⟨ds, hdata⟩ := readDirectory_streamData _ hdirectory stream hstream
    exact stream_liesIn hregion hfits (streamData_window hdata)
  refine ⟨?_, ?_, ?_, ?_, tables_liesIn hroles htables hstreams⟩
  · refine heap_liesIn (fun r => r.strings.span) stringsName (fun roles stream streamBase => ?_) rfl
      hroles hstreams
    rw [assign_strings]
    split <;> rfl
  · refine heap_liesIn (fun r => r.userStrings.span) userStringsName (fun roles stream streamBase => ?_) rfl
      hroles hstreams
    rw [assign_userStrings]
    split <;> rfl
  · refine heap_liesIn (fun r => r.blobs.span) blobName (fun roles stream streamBase => ?_) rfl
      hroles hstreams
    rw [assign_blobs]
    split <;> rfl
  · refine heap_liesIn (fun r => r.guids.span) guidName (fun roles stream streamBase => ?_) rfl
      hroles hstreams
    rw [assign_guids]
    split <;> rfl

end Metadata

/-! ## What the accessors hand out -/

section Accessors

variable {file : List UInt8}

theorem Span.at_ok {span : Span} {offset : Nat} {context : String} {rest : List UInt8}
    (h : span.at_ offset context = .ok rest) : rest = span.data.drop offset := by
  unfold Span.at_ at h
  split at h
  · exact (Except.ok.inj h).symm
  · cases h

theorem StringsHeap.bytes_window {heap : StringsHeap} (hspan : heap.span.LiesIn file)
    {index : Nat} {s : List UInt8} (h : heap.bytes index = .ok s) :
    Window file (heap.span.base + index) s := by
  obtain ⟨rest, hat, hpure⟩ := ok_bind_iff.mp h
  cases hpure
  rw [Span.at_ok hat]
  exact hspan.window.trans (Window.take_drop _ _ _)

/-- The body of a length-prefixed entry stands behind its prefix. -/
theorem Span.entry_window {span : Span} (hspan : span.LiesIn file) {offset size : Nat}
    {context : String} {body : List UInt8} (h : span.entry offset context = .ok (body, size)) :
    ∃ pre tl, Compressed.Payload body.length pre ∧
      span.data.drop offset = pre ++ (body ++ tl) ∧
      span.base + offset + pre.length ≤ usizeMax ∧
      Window file (span.base + offset + pre.length) body := by
  obtain ⟨pre, tl, hpay, hdrop, _⟩ := Span.entry_ok_iff.mp h
  have hpos := hpay.length_pos
  have hlen := congrArg List.length hdrop
  simp only [List.length_drop, List.length_append] at hlen
  have hbody : Window span.data (offset + pre.length) body := by
    right
    rw [← List.drop_drop, hdrop, List.drop_left, List.take_left]
  refine ⟨pre, tl, hpay, hdrop, ?_, Nat.add_assoc _ _ _ ▸ hspan.window.trans hbody⟩
  rcases hspan.fits with hempty | hfits
  · rw [hempty, List.length_nil] at hlen
    omega
  · omega

theorem BlobHeap.get_window {heap : BlobHeap} (hspan : heap.span.LiesIn file) {index : Nat}
    {b : List UInt8} (h : heap.get index = .ok b) :
    ∃ o, heap.bodyOffset index = .ok o ∧ Window file o b := by
  obtain ⟨⟨body, size⟩, hentry, hpure⟩ := ok_bind_iff.mp h
  cases hpure
  obtain ⟨pre, tl, hpay, hdrop, hfits, hwindow⟩ := Span.entry_window hspan hentry
  obtain ⟨rest, hat, _⟩ := ok_bind_iff.mp hentry
  have hread : Compressed.readU32 rest = .ok (b.length, pre.length) := by
    rw [Span.at_ok hat, hdrop]
    exact Compressed.readPayload_append hpay _
  refine ⟨_, ?_, hwindow⟩
  refine ok_bind_iff.mpr ⟨rest, hat, ok_bind_iff.mpr ⟨(b.length, pre.length), ?_, ?_⟩⟩
  · rw [hread]
    rfl
  · have hsat : satAdd (satAdd heap.span.base index) pre.length =
        heap.span.base + index + pre.length := by
      rw [satAdd, satAdd]
      omega
    rw [← hsat]
    rfl

theorem GuidHeap.get_window {heap : GuidHeap} (hspan : heap.span.LiesIn file) {index : Nat}
    {g : List UInt8} (h : heap.get index = .ok g) :
    Window file (heap.span.base + (index - 1) * 16) g := by
  unfold GuidHeap.get at h
  split at h
  · cases h
  split at h
  · cases h
  rename_i start hstart
  split at h
  · rename_i bytes hslice
    cases h
    have hmul : start = (index - 1) * 16 := by
      unfold checkedMul at hstart
      split at hstart
      · exact (Option.some.inj hstart).symm
      · cases hstart
    rw [← hmul]
    exact hspan.window.trans (Window.of_slice? hslice)
  · cases h

/-- The code units of a user string are the first bytes of its entry. -/
theorem splitUserString_window (body : List UInt8) : Window body 0 (splitUserString body).bytes := by
  have hfirst (bs : List UInt8) : Window bs 0 bs.dropLast := by
    rw [List.dropLast_eq_take]
    exact Window.take_drop bs 0 _
  unfold splitUserString
  split
  · exact Window.nil _ _
  · simp only
    split
    · exact (hfirst body).trans (hfirst body.dropLast)
    · exact hfirst body

theorem UserStringsHeap.getAt_window {heap : UserStringsHeap} (hspan : heap.span.LiesIn file)
    {offset : Nat} {u : UserString} (h : heap.getAt offset = .ok u) :
    ∃ used, 0 < used ∧ Window file (heap.span.base + offset + used) u.bytes := by
  obtain ⟨⟨body, size⟩, hentry, hpure⟩ := ok_bind_iff.mp h
  cases hpure
  obtain ⟨pre, _, hpay, _, _, hwindow⟩ := Span.entry_window hspan hentry
  exact ⟨pre.length, hpay.length_pos, hwindow.trans (splitUserString_window body)⟩

theorem Tables.rowBytes_window {t : Tables} (hspan : Span.LiesIn ⟨t.data, t.base⟩ file)
    {table : TableId} {rid : Nat} {row : List UInt8} (h : t.rowBytes table rid = .ok row) :
    Window file (t.base + t.rowStart table rid) row := by
  unfold Tables.rowBytes at h
  simp only at h
  split at h
  · cases h
  split at h
  · rename_i bytes hslice
    cases h
    exact hspan.window.trans (Window.of_slice? hslice)
  · cases h

end Accessors

/-! ## Method bodies -/

/-- The sections of a body end behind its code, in the bytes. -/
theorem readSections_stop {strictness : Strictness} {flags : FatFlags} {sections : Sections}
    {r r' : Reader} (h : (readSections strictness flags).run r = .ok sections r') :
    r.pos ≤ r'.pos ∧ r'.pos ≤ r.data.length := by
  unfold readSections at h
  split at h
  · obtain ⟨hdata, hlt⟩ := parseSections_advances _ _ h
    exact ⟨hlt.le, hdata ▸ r'.pos_le⟩
  · cases h
    exact ⟨Nat.le_refl _, r.pos_le⟩

/-- The code of a body is a part of its bytes, and `codeRva` says where. -/
theorem MethodBody.parseWith_window {bytes : List UInt8} {rva : UInt32} {strictness : Strictness}
    {body : MethodBody} (h : MethodBody.parseWith bytes rva strictness = .ok body) :
    ∃ k, body.codeRva = rva + UInt32.ofNat k ∧ k + body.code.length ≤ body.totalSize ∧
      body.totalSize ≤ bytes.length ∧ Window bytes k body.code := by
  cases bytes with
  | nil => cases h
  | cons first tl =>
      by_cases htiny : first &&& 0x03 = 0x02
      · obtain ⟨hfits, rfl⟩ := (parseWith_tiny_ok_iff htiny).mp h
        refine ⟨1, rfl, ?_, ?_, Window.take_drop (first :: tl) 1 _⟩
        · show 1 + (tl.take (first >>> 2).toNat).length ≤ 1 + (first >>> 2).toNat
          rw [List.length_take]
          omega
        · show 1 + (first >>> 2).toNat ≤ tl.length + 1
          omega
      by_cases hfat : first &&& 0x03 = 0x03
      · obtain ⟨r, hrun⟩ := (parseWith_fat_ok_iff hfat).mp h
        obtain ⟨_, hend, ds, sections, _, _, hsections, rfl⟩ := parseFat_ok_iff.mp hrun
        obtain ⟨hcode, hstop⟩ := readSections_stop hsections
        rw [Reader.moveTo_pos hend, FatHeader.codeEnd] at hcode
        refine ⟨(fatHeader (first :: tl)).size, rfl, ?_, hstop, Window.take_drop _ _ _⟩
        show (fatHeader (first :: tl)).size +
          (((first :: tl).drop (fatHeader (first :: tl)).size).take
            (fatHeader (first :: tl)).codeSize).length ≤ r.pos
        rw [List.length_take]
        omega
      · obtain ⟨r, hrun⟩ := MethodBody.parseWith_ok_iff.mp h
        rw [parseBody_run, if_neg htiny, if_neg hfat] at hrun
        cases hrun

namespace PeImage

variable {bytes : List UInt8} {strictness : Strictness} {image : PeImage}

/-- The body of a method stands in the file where its RVA is mapped. -/
theorem fromImage_window (h : parseWith bytes strictness = .ok image) {method : MethodDefRow}
    {body : MethodBody} (hbody : MethodBody.fromImage image method = .ok (some body)) :
    ∃ o k, image.rvaToOffset method.rva = some o ∧ body.codeRva = method.rva + UInt32.ofNat k ∧
      k + body.code.length ≤ body.totalSize ∧ o + body.totalSize ≤ bytes.length ∧
      Window bytes (o + k) body.code := by
  obtain ⟨hbytes, hsections⟩ := section_inFile h
  rw [← hbytes] at hsections
  unfold MethodBody.fromImage at hbody
  split at hbody
  · cases hbody
  obtain ⟨rest, hrest, hbody⟩ := ok_bind_iff.mp hbody
  obtain ⟨b, hparse, hpure⟩ := ok_bind_iff.mp hbody
  cases hpure
  unfold rvaRest at hrest
  split at hrest
  · cases hrest
  obtain ⟨o, n, ho, hn, _, rfl⟩ := (rvaSlice_ok_iff hsections _ _ _).mp hrest
  have hfile := rva_range_inFile hsections ho hn
  obtain ⟨k, hcodeRva, hcode, htotal, hwindow⟩ := MethodBody.parseWith_window hparse
  rw [List.length_take, List.length_drop] at htotal
  rw [hbytes] at hwindow hfile htotal
  refine ⟨o, k, ho, hcodeRva, hcode, by omega, (Window.take_drop _ _ _).trans hwindow⟩

/-- The metadata region stands in the file where its RVA is mapped. -/
theorem metadata_liesIn (h : parseWith bytes strictness = .ok image) {m : Metadata}
    (hm : image.metadata = .ok m) : m.LiesIn bytes := by
  obtain ⟨hbytes, hsections⟩ := section_inFile h
  rw [← hbytes] at hsections
  obtain ⟨header, o, n, _, _, ho, hn, hparse⟩ := (metadata_ok_iff h m).mp hm
  refine Metadata.parseAt_liesIn hparse (Window.take_drop _ _ _) ?_
  rcases lookup_cases hsections header.metadata.rva with
    ⟨o', n', ho', hn', _, _, hmax⟩ | ⟨hnone, _⟩
  · rw [ho] at ho'
    rw [hn] at hn'
    cases ho'
    cases hn'
    rw [List.length_take]
    omega
  · rw [ho] at hnone
    cases hnone

/-- What is decoded from an accepted image are bytes of the file at the offsets the decoder
reports: the strings, the blobs behind their length prefix, the GUIDs, the user strings, the
rows and the code of the methods. -/
theorem decoded_lies_in_file (h : parseWith bytes strictness = .ok image) {m : Metadata}
    (hm : image.metadata = .ok m) :
    (∀ index s, m.strings.bytes index = .ok s →
      Window bytes (m.strings.span.base + index) s) ∧
    (∀ index b, m.blobs.get index = .ok b →
      ∃ o, m.blobs.bodyOffset index = .ok o ∧ Window bytes o b) ∧
    (∀ index g, m.guids.get index = .ok g →
      Window bytes (m.guids.span.base + (index - 1) * 16) g) ∧
    (∀ offset u, m.userStrings.getAt offset = .ok u →
      ∃ used, 0 < used ∧ Window bytes (m.userStrings.span.base + offset + used) u.bytes) ∧
    (∀ table rid row, m.tables.rowBytes table rid = .ok row →
      Window bytes (m.tables.base + m.tables.rowStart table rid) row) ∧
    (∀ method body, MethodBody.fromImage image method = .ok (some body) →
      ∃ o k, image.rvaToOffset method.rva = some o ∧
        body.codeRva = method.rva + UInt32.ofNat k ∧ k + body.code.length ≤ body.totalSize ∧
        o + body.totalSize ≤ bytes.length ∧ Window bytes (o + k) body.code) := by
  have hlies := metadata_liesIn h hm
  exact ⟨fun _ _ => StringsHeap.bytes_window hlies.strings,
    fun _ _ => BlobHeap.get_window hlies.blobs, fun _ _ => GuidHeap.get_window hlies.guids,
    fun _ _ => UserStringsHeap.getAt_window hlies.userStrings,
    fun _ _ _ => Tables.rowBytes_window hlies.tables, fun _ _ => fromImage_window h⟩

/-- The code of the one method is the last byte before the metadata region. -/
theorem decoded_lies_in_file_oneMethod :
    ∃ body, MethodBody.fromImage (ManagedFile.oneMethodFile.image .permissive)
        ManagedFile.oneMethodRow = .ok (some body) ∧
      ∃ o k, (ManagedFile.oneMethodFile.image .permissive).rvaToOffset
          (MethodDefRow.rva ManagedFile.oneMethodRow) = some o ∧
        body.codeRva = MethodDefRow.rva ManagedFile.oneMethodRow + UInt32.ofNat k ∧
        k + body.code.length ≤ body.totalSize ∧
        o + body.totalSize ≤ ManagedFile.oneMethodFile.bytes.length ∧
        Window ManagedFile.oneMethodFile.bytes (o + k) body.code := by
  have hok : (ManagedFile.oneMethodFile.image .permissive).metadata.toOption.map
      Metadata.diagnostics = some [] := by
    decide +kernel
  obtain ⟨m, hm, _⟩ := Option.map_eq_some_iff.mp hok
  have hrow : ManagedFile.oneMethodRow ∈ ManagedFile.oneMethod.tables.rows .methodDef :=
    List.mem_singleton_self _
  have hbody : MethodBody.fromImage (ManagedFile.oneMethodFile.image .permissive)
      ManagedFile.oneMethodRow = .ok (some (Body.parsed 0x2048 ManagedFile.oneMethodBody)) :=
    ManagedFile.oneMethod.fromImage_eq hrow
  have hfile := decoded_lies_in_file (ManagedFile.oneMethodFile.parseWith_bytes .permissive)
    (ok_of_toOption hm)
  exact ⟨_, hbody, hfile.2.2.2.2.2 _ _ hbody⟩

end PeImage

end Cildec
