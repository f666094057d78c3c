import Cildec.Tables.Clamp
import Cildec.Tables.Encode

/-!
# Reading back a written table stream

`parse_bytes`: permissive parsing of a serialised stream, followed by anything, returns
every list of rows. The proof goes bottom up: a column, a row, the header, the place of
a table, the place of a row.
-/

namespace Cildec

open Wire

/-! ## Columns -/

/-- A coded column decodes to the token it was written from. -/
theorem CodedIndex.decode_codedValue {kind : CodedIndex} {token : Token} {table : TableId}
    (offset : Nat) (htable : token.table = some table) (hmem : some table ∈ kind.tables) :
    kind.decode (codedValue kind token) offset = .ok token := by
  have hrid : token.rid ≤ (2 ^ 32 - 1) >>> kind.tagBits := by
    have hlt := token.rid_lt
    have hle : 2 ^ 24 ≤ (2 ^ 32 - 1) >>> kind.tagBits := by cases kind <;> decide
    omega
  have hfind : kind.tables.findIdx? (· == some table) = some (kind.tables.idxOf (some table)) :=
    List.findIdx?_eq_some_iff_findIdx_eq.mpr ⟨List.idxOf_lt_length_of_mem hmem, rfl⟩
  refine kind.decode_encode offset (encode_eq_some_iff.mpr ⟨table, _, htable, hfind, hrid, ?_⟩)
  rw [codedValue, TableStream.tagSize_eq, htable]

/-- The next column of a row: the bytes at the offset of the columns before it. -/
theorem RowCursor.uint_run {c : RowCursor} {widths before : List Nat} {w v : Nat}
    {pre post : List UInt8} {after : List Nat} (hwidths : widths = before ++ w :: after)
    (hw : w = 2 ∨ w = 4) (hsum : widths.sum < 256)
    (hcount : c.layout.columnCount = widths.length)
    (hoffsets : c.layout.columnOffsets = columnOffsets 0 widths)
    (hcolumns : c.layout.columnWidths = widths) (hcolumn : c.column = before.length)
    (hbytes : c.bytes = pre ++ (leBytes w v ++ post)) (hpre : pre.length = before.sum)
    (hv : v < 256 ^ w) :
    RowCursor.uint.run c = .ok v { c with column := before.length + 1 } := by
  have hlt : before.length < widths.length := by
    rw [hwidths]
    simp
  have htake : widths.take before.length = before := by
    rw [hwidths, List.take_left' rfl]
  have hsumle : before.sum ≤ widths.sum := by
    rw [hwidths, List.sum_append]
    omega
  have hoffset : (columnOffsets 0 widths).getD before.length 0 = pre.length := by
    rw [getD_columnOffsets _ _ _ hlt, htake, Nat.zero_add, Nat.mod_eq_of_lt (by omega), hpre]
  have hwidth : widths.getD before.length 0 = w := by
    rw [hwidths, List.getD_append_right _ _ _ _ (Nat.le_refl _)]
    simp
  have hread : readUintAt c.bytes pre.length w = some v := by
    rw [hbytes]
    exact readUintAt_append hw hv pre post
  have hguard : ¬ c.layout.columnCount ≤ before.length := by
    rw [hcount]
    omega
  simp only [RowCursor.uint, EStateM.run_bind, EStateM.run_get, hcolumn, if_neg hguard,
    EStateM.run_set, hoffsets, hcolumns, hoffset, hwidth, hread, EStateM.run_pure]

/-- The next column of a row, as a coded index. -/
theorem RowCursor.coded_run {kind : CodedIndex} {token : Token} {table : TableId}
    {c c' : RowCursor} (htable : token.table = some table) (hmem : some table ∈ kind.tables)
    (huint : RowCursor.uint.run c = .ok (codedValue kind token) c') :
    (RowCursor.coded kind).run c = .ok token c' := by
  have hget : (get : EStateM Error RowCursor RowCursor).run c = .ok c c := rfl
  rw [RowCursor.coded, run_bind_of_ok hget, run_bind_of_ok huint,
    CodedIndex.decode_codedValue _ htable hmem, run_ofExcept_ok]

/-- A cell is read back from its raw value. -/
theorem readCell_run {kind : ColumnKind} {cell : kind.Cell} {c c' : RowCursor}
    (hok : CellOk kind cell) (huint : RowCursor.uint.run c = .ok (cellValue kind cell) c') :
    (readCell kind).run c = .ok cell c' := by
  have hplain : ∀ {α : Type} (f : Nat → α) {a : α}, f (cellValue kind cell) = a →
      (RowCursor.uint >>= fun v => pure (f v) : EStateM Error RowCursor α).run c = .ok a c' := by
    rintro α f _ rfl
    exact run_bind_of_ok huint
  cases kind with
  | u16 => exact hplain UInt16.ofNat UInt16.ofNat_toNat
  | u32 => exact hplain UInt32.ofNat UInt32.ofNat_toNat
  | string =>
      exact hplain (fun v => StringIndex.mk (UInt32.ofNat v))
        (congrArg StringIndex.mk UInt32.ofNat_toNat)
  | blob =>
      exact hplain (fun v => BlobIndex.mk (UInt32.ofNat v))
        (congrArg BlobIndex.mk UInt32.ofNat_toNat)
  | guid =>
      exact hplain (fun v => GuidIndex.mk (UInt32.ofNat v))
        (congrArg GuidIndex.mk UInt32.ofNat_toNat)
  | rid target =>
      exact hplain (fun v => (Rid.mk (UInt32.ofNat v) : Rid target))
        (congrArg Rid.mk UInt32.ofNat_toNat)
  | coded kind =>
      obtain ⟨table, htable, hmem⟩ := hok
      exact RowCursor.coded_run htable hmem huint

/-! ## Rows -/

/-- The cells of a row are read back one after another. -/
theorem readCells_run {width : ColumnKind → Nat} (hwidth : ∀ kind, width kind = 2 ∨ width kind = 4)
    {widths : List Nat} (hsum : widths.sum < 256) (post : List UInt8) :
    ∀ (kinds : List ColumnKind) (cells : Cells kinds) (c : RowCursor) (before : List Nat)
      (pre : List UInt8), CellsFit width kinds cells →
      widths = before ++ kinds.map width → c.layout.columnCount = widths.length →
      c.layout.columnOffsets = columnOffsets 0 widths → c.layout.columnWidths = widths →
      c.column = before.length → c.bytes = pre ++ (encodeCells width kinds cells ++ post) →
      pre.length = before.sum →
      (readCells kinds).run c = .ok cells { c with column := widths.length }
  | [], cells, c, before, pre, _, hwidths, _, _, _, hcolumn, _, _ => by
      have hlen : widths.length = c.column := by
        rw [hwidths, hcolumn]
        simp
      rw [hlen]
      rfl
  | kind :: kinds, (cell, cells), c, before, pre, hfits, hwidths, hcount, hoffsets, hcolumns,
      hcolumn, hbytes, hpre => by
      obtain ⟨hok, hv, hrest⟩ := hfits
      rw [encodeCells, List.append_assoc] at hbytes
      have hcell := readCell_run hok
        (RowCursor.uint_run hwidths (hwidth kind) hsum hcount hoffsets hcolumns hcolumn hbytes hpre hv)
      have htail := readCells_run hwidth hsum post kinds cells
        { c with column := before.length + 1 } (before ++ [width kind])
        (pre ++ leBytes (width kind) (cellValue kind cell)) hrest
        (by rw [hwidths]; simp) hcount hoffsets hcolumns (by simp)
        (by rw [hbytes]; simp) (by simp [hpre])
      exact (run_bind_of_ok hcell).trans (run_bind_of_ok htail)

/-! ## The header -/

/-- The counts of known tables are read back. -/
theorem decodes_readRowCounts (s : Strictness) {valid : Nat} (counts : Nat → UInt32)
    (hknown : ∀ slot, valid.testBit slot → (TableId.fromU8 slot).isSome) :
    ∀ (slots : List Nat) (before : TableId → Nat) (ds : List Diagnostic) (tl : List UInt8),
      slots.Nodup → Decodes (fun _ => True) (readRowCounts s valid slots before ds)
        (slots.flatMap (countBytes valid counts)) (countsAt valid counts slots before, ds) tl
  | [], before, ds, tl, _ => by
      have hcounts : countsAt valid counts [] before = before := by
        funext table
        simp [countsAt]
      rw [hcounts]
      exact Decodes.pure _ _ tl
  | slot :: slots, before, ds, tl, hnodup => by
      obtain ⟨hnotin, hnodup'⟩ := List.nodup_cons.mp hnodup
      unfold readRowCounts
      rw [List.flatMap_cons]
      by_cases hbit : valid.testBit slot
      · obtain ⟨id, hid⟩ := Option.isSome_iff_exists.mp (hknown slot hbit)
        have hslot := TableId.toU8_of_fromU8 hid
        have hcounts : countsAt valid counts (slot :: slots) before =
            countsAt valid counts slots (Function.update before id (counts slot).toNat) := by
          funext table
          by_cases htable : table = id
          · subst htable
            simp [countsAt, hslot, hnotin, hbit]
          · have hne : table.toU8 ≠ slot := fun he =>
              htable (TableId.toU8_injective (he.trans hslot.symm))
            simp [countsAt, hne, Function.update_of_ne htable]
        rw [if_pos hbit, countBytes_of_testBit counts hbit, hcounts]
        refine Decodes.get_bind fun r _ _ => (Reader.decodes_u32 _ (counts slot) _).seq ?_
        simp only [hid]
        exact decodes_readRowCounts s counts hknown slots _ ds tl hnodup'
      · have hcounts : countsAt valid counts (slot :: slots) before =
            countsAt valid counts slots before := by
          funext table
          by_cases htable : table.toU8 = slot
          · subst htable
            simp [countsAt, hbit]
          · simp [countsAt, htable]
        rw [if_neg hbit, countBytes, if_neg hbit, List.nil_append, hcounts]
        exact decodes_readRowCounts s counts hknown slots before ds tl hnodup'

/-- The optional dword is read back. -/
theorem decodes_readExtraData (raw : RawHeader) (tl : List UInt8) :
    Decodes (fun _ => True) (readExtraData raw.heapSizes) raw.extraBytes raw.extra tl := by
  have hsome := raw.extra_isSome
  unfold readExtraData
  rw [← hsome, RawHeader.extraBytes]
  cases raw.extra with
  | none => exact Decodes.pure _ _ tl
  | some v => exact (Reader.decodes_u32 _ v tl).map some

/-- The bits that are used are known. -/
theorem heapSizes_known {heapSizes : UInt8}
    (h : heapSizes &&& ~~~(0x01 ||| 0x02 ||| 0x04 ||| 0x40) = 0) :
    heapSizes &&& ~~~knownHeapBits = 0 := by
  have hsub : heapSizes &&& ~~~knownHeapBits =
      (heapSizes &&& ~~~(0x01 ||| 0x02 ||| 0x04 ||| 0x40)) &&& ~~~knownHeapBits := by
    rw [UInt8.and_assoc]
    rfl
  rw [hsub, h]
  rfl

/-- A header with known tables and known `HeapSizes` bits is read back without a
diagnostic. -/
theorem decodes_readStreamHeader (base : Nat) (s : Strictness) (ds : List Diagnostic)
    {raw : RawHeader} (hbits : raw.heapSizes &&& ~~~knownHeapBits = 0)
    (hknown : ∀ slot, raw.valid.toNat.testBit slot → (TableId.fromU8 slot).isSome)
    (tl : List UInt8) :
    Decodes (fun _ => True) (readStreamHeader base s ds) raw.bytes (raw.header, ds) tl := by
  have hcheck : checkHeapSizes base s raw.heapSizes ds = .ok ds := by
    simp [checkHeapSizes, hbits]
  have hsplit : raw.bytes = leBytes 4 raw.reserved.toNat ++ ([raw.majorVersion] ++
      ([raw.minorVersion] ++ ([raw.heapSizes] ++ ([raw.reserved2] ++
        (leBytes 8 raw.valid.toNat ++ (leBytes 8 raw.sorted.toNat ++ ([] ++
          (raw.countsBytes ++ raw.extraBytes)))))))) := by
    simp only [RawHeader.bytes, RawHeader.fixedBytes, List.append_assoc, List.nil_append]
  rw [hsplit]
  unfold readStreamHeader
  refine (Reader.decodes_u32 _ raw.reserved _).seq ?_
  refine (Reader.decodes_u8 _ raw.majorVersion _).seq ?_
  refine (Reader.decodes_u8 _ raw.minorVersion _).seq ?_
  refine (Reader.decodes_u8 _ raw.heapSizes _).seq ?_
  refine (Reader.decodes_u8 _ raw.reserved2 _).seq ?_
  refine (Reader.decodes_u64 _ raw.valid _).seq ?_
  refine (Reader.decodes_u64 _ raw.sorted _).seq ?_
  rw [hcheck]
  refine (Decodes.ofExcept _ ds _).seq ?_
  refine (decodes_readRowCounts s raw.counts hknown _ _ ds _ List.nodup_range).seq ?_
  exact (decodes_readExtraData raw tl).map _

namespace TableStream

variable (ts : TableStream) (tl : List UInt8)

/-- What follows the header. -/
def body : List UInt8 := TableId.all.flatMap ts.tableBytes ++ tl

theorem bytes_append : ts.bytes ++ tl = ts.raw.bytes ++ ts.body tl := by
  rw [bytes, body, List.append_assoc]

theorem declaredHeader_eq : declaredHeader (ts.bytes ++ tl) = ts.raw.header := by
  rw [bytes_append, declaredHeader_bytes]

theorem headerEnd_eq : headerEnd (ts.bytes ++ tl) = ts.raw.bytes.length := by
  rw [bytes_append, headerEnd_bytes]

theorem declaredRows_eq (table : TableId) :
    declaredRows (ts.bytes ++ tl) table = (ts.rows table).length := by
  rw [bytes_append, declaredRows_bytes, rowCounts_eq]

theorem declaredRowSize_eq (table : TableId) :
    declaredRowSize (ts.bytes ++ tl) table = ts.rowSize table := by
  rw [declaredRowSize, declaredHeader_eq, rowSizeOf_eq]

/-- The declared size of a table is the size of its rows. -/
theorem declaredSize_eq (table : TableId) :
    declaredSize (ts.bytes ++ tl) table = (ts.tableBytes table).length := by
  rw [declaredSize, declaredRows_eq, declaredRowSize_eq, tableBytes_length]

/-- The declared start of a table is where its rows are. -/
theorem split_at_table (table : TableId) :
    ∃ pre post, ts.bytes ++ tl = pre ++ (ts.tableBytes table ++ post) ∧
      pre.length = declaredStart (ts.bytes ++ tl) table := by
  obtain ⟨pre, post, hsplit, hlen⟩ := flatMap_split ts.tableBytes (TableId.mem_all table)
  refine ⟨ts.raw.bytes ++ pre, post ++ tl, ?_, ?_⟩
  · rw [bytes, hsplit]
    simp only [List.append_assoc]
  · rw [List.length_append, hlen, declaredStart, headerEnd_eq]
    exact congrArg _ (offsetOf_congr fun u _ => (ts.declaredSize_eq tl u).symm)

/-- The declared place of a row is where the row is. -/
theorem split_at_row {table : TableId} {i : Nat} {row : Row table}
    (hrow : (ts.rows table)[i]? = some row) :
    ∃ pre post, ts.bytes ++ tl =
        pre ++ (encodeCells ts.width (columnsOf table) row ++ post) ∧
      pre.length = declaredStart (ts.bytes ++ tl) table + i * ts.rowSize table := by
  obtain ⟨front, back, htable, hfront⟩ := ts.split_at_table tl table
  obtain ⟨pre, post, hsplit, hlen⟩ := flatMap_split_const
    (fun row _ => encodeCells_length ts.width (columnsOf table) row) hrow
  refine ⟨front ++ pre, post ++ back, ?_, ?_⟩
  · rw [htable, tableBytes, hsplit]
    simp only [List.append_assoc]
  · rw [List.length_append, hfront, hlen, rowSize]

/-- Every table of the stream fits. -/
theorem table_fits (table : TableId) :
    declaredStart (ts.bytes ++ tl) table + declaredSize (ts.bytes ++ tl) table ≤
      (ts.bytes ++ tl).length := by
  obtain ⟨pre, post, hsplit, hlen⟩ := ts.split_at_table tl table
  have htotal := congrArg List.length hsplit
  rw [@List.length_append _ pre, @List.length_append _ (ts.tableBytes table)] at htotal
  rw [declaredSize_eq]
  omega

/-! ## Parsing -/

variable (base : Nat) (uncompressed : Bool) (ds : List Diagnostic)

/-- The stream is accepted. -/
theorem exists_parse : ∃ t ds',
    Tables.parse (ts.bytes ++ tl) base uncompressed .permissive ds = .ok (t, ds') := by
  have hrest : Wire.rest (Reader.new (ts.bytes ++ tl) base tableStreamContext) =
      ts.raw.bytes ++ ts.body tl := by
    rw [Reader.cursor_rest, Reader.rest_new, bytes_append]
  exact Tables.parse_permissive_ok uncompressed (decodes_readStreamHeader base .permissive ds
    (heapSizes_known ts.heapSizes_bits) ts.valid_known (ts.body tl) _ trivial hrest)

variable {base uncompressed ds} {tl} {t : Tables} {ds' : List Diagnostic}

/-- Every table is laid out as written. -/
theorem layouts_eq
    (hrun : Tables.parse (ts.bytes ++ tl) base uncompressed .permissive ds = .ok (t, ds'))
    (table : TableId) : t.layouts table = layoutAt ts.raw.header table
      (ts.rows table).length (declaredStart (ts.bytes ++ tl) table) := by
  obtain ⟨before, after, hall⟩ := List.append_of_mem (TableId.mem_all table)
  have hfits := ts.table_fits tl table
  have hlayout := (Tables.parse_reaches hrun hall (by omega)).1
  have hrows : rowsFrom (ts.bytes ++ tl).length ts.raw.header
      (declaredStart (ts.bytes ++ tl) table) table = (ts.rows table).length := by
    have hsize : headerSize ts.raw.header table = declaredSize (ts.bytes ++ tl) table := by
      rw [← declaredHeader_eq ts tl]
      rfl
    rw [rowsFrom, hsize, if_neg (by omega), rowCounts_eq]
  rwa [declaredHeader_eq, hrows] at hlayout

/-- A row is read back. -/
theorem row_eq
    (hrun : Tables.parse (ts.bytes ++ tl) base uncompressed .permissive ds = .ok (t, ds'))
    {table : TableId} {i : Nat} {row : Row table} (hrow : (ts.rows table)[i]? = some row) :
    t.row table (i + 1) = .ok row := by
  obtain ⟨⟨hdata, _, hl⟩, _⟩ := Tables.parse_spec hrun
  have hlayout := ts.layouts_eq hrun table
  obtain ⟨hlt, hget⟩ := List.getElem?_eq_some_iff.mp hrow
  have hhas : t.HasRow table (i + 1) := by
    refine ⟨by omega, ?_⟩
    rw [Tables.rowCount, hlayout]
    exact hlt
  have hbytes : t.rowBytes table (i + 1) =
      .ok (encodeCells ts.width (columnsOf table) row ++ []) := by
    obtain ⟨pre, post, hsplit, hlen⟩ := ts.split_at_row tl hrow
    have hstart : t.rowStart table (i + 1) = pre.length := by
      rw [Tables.rowStart, Tables.layout, hlayout, hlen, Nat.add_sub_cancel]
      simp only [layoutAt, rowSizeOf_eq]
    have hsize : (encodeCells ts.width (columnsOf table) row).length =
        rowSizeOf (declaredHeader (ts.bytes ++ tl)) table := by
      rw [encodeCells_length, declaredHeader_eq, rowSizeOf_eq, rowSize]
    have hslice := @take_drop_append _ pre _ post _ _ rfl hsize
    rw [← hsplit] at hslice
    rw [hl.rowBytes_eq hhas, hdata, hstart, hslice, List.append_nil]
  have hfits := ts.fits table row (List.mem_of_getElem? hrow)
  have hsum : ((columnsOf table).map ts.width).sum < 256 := by
    have hle := rowSizeOf_le ts.raw.header table
    rw [rowSizeOf_eq, rowSize] at hle
    omega
  have hwidths := ts.columnWidths_eq table
  have hread := fun rowBase => readCells_run ts.width_eq hsum [] (columnsOf table) row
    { bytes := encodeCells ts.width (columnsOf table) row ++ []
      layout := layoutAt ts.raw.header table (ts.rows table).length
        (declaredStart (ts.bytes ++ tl) table)
      column := 0, base := rowBase } [] [] hfits rfl
    (by simp [layoutAt]) (by simp only [layoutAt, hwidths]) hwidths rfl rfl rfl
  simp only [Tables.row, hbytes, bind, Except.bind, Tables.layout, hlayout, hread]
  rfl

/-- The table has the rows that were written. -/
theorem rowCount_eq
    (hrun : Tables.parse (ts.bytes ++ tl) base uncompressed .permissive ds = .ok (t, ds'))
    (table : TableId) : t.rowCount table = (ts.rows table).length := by
  rw [Tables.rowCount, ts.layouts_eq hrun table]
  rfl

/-- Reading a table from its first row to its last gives back its rows. -/
theorem rows_eq
    (hrun : Tables.parse (ts.bytes ++ tl) base uncompressed .permissive ds = .ok (t, ds'))
    (table : TableId) :
    (List.range' 1 (t.rowCount table)).map (t.row table) = (ts.rows table).map .ok := by
  have hcount := ts.rowCount_eq hrun table
  apply List.ext_getElem
  · simp [hcount]
  · intro i hi _
    have hlt : i < (ts.rows table).length := by simpa [hcount] using hi
    have hrow := ts.row_eq hrun (List.getElem?_eq_getElem hlt)
    simp [Nat.add_comm 1 i, hrow]

/-- The rows that are read are those that were written, each at its RID. -/
theorem row_ok_iff
    (hrun : Tables.parse (ts.bytes ++ tl) base uncompressed .permissive ds = .ok (t, ds'))
    {table : TableId} {rid : Nat} {row : Row table} :
    t.row table rid = .ok row ↔ 1 ≤ rid ∧ (ts.rows table)[rid - 1]? = some row := by
  constructor
  · intro hrow
    have hhas : t.HasRow table rid := by
      by_contra hno
      simp only [Tables.row, Tables.LaidOut.rowBytes_out_of_range hno, bind, Except.bind] at hrow
      cases hrow
    obtain ⟨hone, hle⟩ := hhas
    have hread := congrArg (·[rid - 1]?) (ts.rows_eq hrun table)
    simp only [List.getElem?_map, List.getElem?_range' (show rid - 1 < t.rowCount table by omega),
      Option.map_some] at hread
    rw [show 1 + 1 * (rid - 1) = rid by omega, hrow] at hread
    obtain ⟨row', hget, heq⟩ := Option.map_eq_some_iff.mp hread.symm
    cases heq
    exact ⟨hone, hget⟩
  · rintro ⟨hone, hget⟩
    have hrow := ts.row_eq hrun hget
    rwa [Nat.sub_add_cancel hone] at hrow

variable (base uncompressed ds) (tl)

/-- Decoding undoes encoding: parsing the serialised stream, whatever follows it, gives
back the row counts and, at each RID, the row of the list and nothing else. -/
theorem parse_bytes : ∃ t ds',
    Tables.parse (ts.bytes ++ tl) base uncompressed .permissive ds = .ok (t, ds') ∧
    (∀ table, t.rowCount table = (ts.rows table).length) ∧
    (∀ table rid row, t.row table rid = .ok row ↔
      1 ≤ rid ∧ (ts.rows table)[rid - 1]? = some row) := by
  obtain ⟨t, ds', hrun⟩ := ts.exists_parse tl base uncompressed ds
  have hcount : ∀ table, t.rowCount table = (ts.rows table).length := by
    intro table
    rw [Tables.rowCount, ts.layouts_eq hrun table]
    rfl
  refine ⟨t, ds', hrun, hcount, fun table rid row => ⟨fun hrow => ?_, ?_⟩⟩
  · have hhas : t.HasRow table rid := by
      by_contra hno
      simp only [Tables.row, Tables.LaidOut.rowBytes_out_of_range hno, bind, Except.bind] at hrow
      cases hrow
    obtain ⟨h1, hle⟩ := hhas
    obtain ⟨i, rfl⟩ : ∃ i, rid = i + 1 := ⟨rid - 1, by omega⟩
    have hlt : i < (ts.rows table).length := by
      rw [← hcount]
      omega
    have hget : (ts.rows table)[i]? = some (ts.rows table)[i] := List.getElem?_eq_getElem hlt
    rw [ts.row_eq hrun hget] at hrow
    cases hrow
    exact ⟨h1, hget⟩
  · rintro ⟨h1, hget⟩
    have hrow := ts.row_eq hrun hget
    rwa [Nat.sub_add_cancel h1] at hrow

/-- Three rows of the `NestedClass` table. -/
def nestedClassRows : List (Row .nestedClass) :=
  [(⟨1⟩, ⟨9⟩, ()), (⟨2⟩, ⟨9⟩, ()), (⟨2⟩, ⟨9⟩, ())]

/-- Three nested classes, as a stream. -/
def nestedClasses : TableStream where
  reserved := 0
  majorVersion := 2
  minorVersion := 0
  heapSizes := 0
  reserved2 := 1
  valid := 0x0000020000000000
  sorted := 0
  extra := 0
  rows
    | .nestedClass => nestedClassRows
    | _ => []
  heapSizes_bits := by decide
  valid_known slot h := by
    have hslot : slot = 41 := by
      have hpow : UInt64.toNat 0x0000020000000000 = 2 ^ 41 := rfl
      rw [hpow, Nat.testBit_two_pow] at h
      simpa [eq_comm] using h
    rw [hslot]
    decide
  valid_rows table h := by
    cases table <;> first | exact absurd rfl h | decide
  rows_lt table := by
    cases table <;> decide
  ptr_rows table ptr h := by
    cases table <;> cases h <;> exact .inl rfl
  fits table row h := by
    cases table with
    | nestedClass =>
        have hrows : row ∈ nestedClassRows := h
        rcases hrows with _ | ⟨_, _ | ⟨_, _ | ⟨_, hnil⟩⟩⟩
        · exact ⟨trivial, by decide, trivial, by decide, trivial⟩
        · exact ⟨trivial, by decide, trivial, by decide, trivial⟩
        · exact ⟨trivial, by decide, trivial, by decide, trivial⟩
        · cases hnil
    | _ => cases h

example : nestedClasses.bytes =
    [0, 0, 0, 0, 2, 0, 0, 1, 0, 0, 0, 0, 0, 0x02, 0, 0, 0, 0, 0, 0, 0, 0, 0, 0,
      3, 0, 0, 0, 1, 0, 9, 0, 2, 0, 9, 0, 2, 0, 9, 0] := by decide +kernel

end TableStream

end Cildec
