import Cildec.Tables.Keyed
import Cildec.Tables.RoundTrip

/-!
# Writing decoded rows again

A row is decoded column by column, and a cell keeps all of its raw value except a coded one, whose
token has no more than 24 bits for the RID.

* `row_reencodes`: a decoded row is written as its own bytes exactly when no RID was cut;
* `stream_reencoded`: then an accepted stream is its header, its rows written out again, and what
  is left behind them. So rows and header determine the stream up to there.
-/

namespace Cildec

open Wire

/-- The width the layout gives a column. -/
def StreamHeader.width (h : StreamHeader) (kind : ColumnKind) : Nat :=
  columnWidth kind h.rowCounts h.stringsWide h.guidsWide h.blobsWide

/-- The cell of a raw value has room for its RID. -/
def KeepsRid : ColumnKind → Nat → Prop
  | .coded kind, v => v / 2 ^ kind.tagBits < 2 ^ 24
  | _, _ => True

/-- The position of a table in the tables of a kind is the tag that selects it. -/
theorem idxOf_tag {kind : CodedIndex} {tag : Nat} {table : TableId}
    (h : kind.tables[tag]?.join = some table) : kind.tables.idxOf (some table) = tag :=
  (List.findIdx?_eq_some_iff_findIdx_eq.mp (kind.findIdx_of_tag h)).2

/-- The token of a raw value is written as that value with its RID cut to 24 bits. -/
theorem codedValue_of_decode {kind : CodedIndex} {token : Token} {v offset : Nat}
    (h : kind.decode v offset = .ok token) : codedValue kind token =
      v / 2 ^ kind.tagBits % 2 ^ 24 * 2 ^ kind.tagBits + v % 2 ^ kind.tagBits := by
  obtain ⟨table, htag, rfl⟩ := CodedIndex.decode_eq_ok_iff.mp h
  rw [codedValue, TableStream.tagSize_eq, Token.table_new, Token.rid_new_mod, idxOf_tag htag]

/-- A cell is written as its raw value, or as less when its RID was cut. -/
theorem cellValue_of_raw {kind : ColumnKind} {cell : kind.Cell} {v : Nat}
    (hcell : CellOfRaw kind cell v) (hv : v < 2 ^ 32) (hu16 : kind = .u16 → v < 2 ^ 16) :
    cellValue kind cell ≤ v ∧ (cellValue kind cell = v ↔ KeepsRid kind v) := by
  have hexact {a b : Nat} {P : Prop} (h : a = b) (hP : P) : a ≤ b ∧ (a = b ↔ P) :=
    ⟨Nat.le_of_eq h, iff_of_true h hP⟩
  cases kind with
  | coded kind =>
      obtain ⟨offset, hdecode⟩ := hcell
      have hvalue : cellValue (.coded kind) cell = _ := codedValue_of_decode hdecode
      have hsplit := Nat.div_add_mod' v (2 ^ kind.tagBits)
      have hmod := Nat.mod_le (v / 2 ^ kind.tagBits) (2 ^ 24)
      have hmul := Nat.mul_le_mul_right (2 ^ kind.tagBits) hmod
      refine ⟨by omega, ?_⟩
      constructor
      · intro heq
        have hsame : v / 2 ^ kind.tagBits % 2 ^ 24 * 2 ^ kind.tagBits =
            v / 2 ^ kind.tagBits * 2 ^ kind.tagBits := by omega
        have hrid := Nat.eq_of_mul_eq_mul_right (Nat.two_pow_pos kind.tagBits) hsame
        show v / 2 ^ kind.tagBits < 2 ^ 24
        rw [← hrid]
        exact Nat.mod_lt _ (Nat.two_pow_pos 24)
      · intro hkeeps
        rw [hvalue, Nat.mod_eq_of_lt hkeeps]
        exact hsplit
  | u16 =>
      obtain rfl := hcell
      exact hexact (UInt16.toNat_ofNat_of_lt' (hu16 rfl)) trivial
  | _ =>
      obtain rfl := hcell
      exact hexact (UInt32.toNat_ofNat_of_lt' hv) trivial

/-! ## Rows -/

/-- What is read is the number of the bytes there. -/
theorem eq_leNat_of_readUintAt {bytes : List UInt8} {offset width v : Nat}
    (h : readUintAt bytes offset width = some v) : v = leNat ((bytes.drop offset).take width) := by
  unfold readUintAt at h
  split at h
  · obtain ⟨bs, hbs, rfl⟩ := Option.map_eq_some_iff.mp h
    obtain ⟨_, rfl⟩ := slice?_eq_some_iff.mp hbs
    rw [Nat.add_sub_cancel_left]
  · obtain ⟨bs, hbs, rfl⟩ := Option.map_eq_some_iff.mp h
    obtain ⟨_, rfl⟩ := slice?_eq_some_iff.mp hbs
    rw [Nat.add_sub_cancel_left]
  · cases h

/-- The raw values from column `i` on, in columns of the widths. -/
def rawBytes (value : Nat → Nat) : List Nat → Nat → List UInt8
  | [], _ => []
  | w :: ws, i => leBytes w (value i) ++ rawBytes value ws (i + 1)

/-- Bytes are the columns they are cut into. -/
theorem rawBytes_eq {value : Nat → Nat} {ws : List Nat} {bytes : List UInt8} {i : Nat}
    (hlen : bytes.length = ws.sum) (hvalue : ∀ j (hj : j < ws.length),
      value (i + j) = leNat ((bytes.drop (ws.take j).sum).take ws[j])) :
    rawBytes value ws i = bytes := by
  induction ws generalizing bytes i with
  | nil => exact (List.length_eq_zero_iff.mp hlen).symm
  | cons w ws ih =>
      rw [List.sum_cons] at hlen
      have hfirst : value i = leNat (bytes.take w) := hvalue 0 (Nat.zero_lt_succ _)
      have htake : (bytes.take w).length = w := by
        rw [List.length_take]
        omega
      have hrest : rawBytes value ws (i + 1) = bytes.drop w := by
        refine ih (by rw [List.length_drop]; omega) fun j hj => ?_
        have hnext := hvalue (j + 1) (Nat.succ_lt_succ hj)
        rw [List.take_succ_cons, List.sum_cons, ← List.drop_drop] at hnext
        rw [Nat.add_assoc, Nat.add_comm 1 j]
        exact hnext
      rw [rawBytes, hfirst, leBytes_leNat_of_length htake, hrest, List.take_append_drop]

/-- The cells of raw values are written as these exactly when no RID was cut. -/
theorem encodeCells_eq_iff {width : ColumnKind → Nat} {value : Nat → Nat} :
    ∀ {kinds : List ColumnKind} {cells : Cells kinds} {i : Nat}, HoldsRaw value kinds cells i →
      (∀ kind ∈ kinds, width kind ≤ 4 ∧ (kind = .u16 → width kind = 2)) →
      (∀ j kind, kinds[j]? = some kind → value (i + j) < 256 ^ width kind) →
      (encodeCells width kinds cells = rawBytes value (kinds.map width) i ↔
        ∀ j kind, kinds[j]? = some kind → KeepsRid kind (value (i + j)))
  | [], _, _, _, _, _ => by
      refine iff_of_true rfl fun j kind h => ?_
      cases h
  | kind :: kinds, (cell, cells), i, hholds, hwidth, hlt => by
      obtain ⟨hcell, hcells⟩ := hholds
      have hw := hwidth kind List.mem_cons_self
      have hv : value i < 256 ^ width kind := hlt 0 kind rfl
      have hrest : encodeCells width kinds cells = rawBytes value (kinds.map width) (i + 1) ↔ _ :=
        encodeCells_eq_iff hcells (fun k hk => hwidth k (List.mem_cons_of_mem _ hk))
          fun j k hk => by
            rw [Nat.add_assoc, Nat.add_comm 1 j]
            exact hlt (j + 1) k hk
      have hsmall : value i < 2 ^ 32 := by
        refine Nat.lt_of_lt_of_le hv ?_
        exact Nat.pow_le_pow_right (by decide : 256 > 0) hw.1
      have hu16 (hkind : kind = .u16) : value i < 2 ^ 16 := by
        rw [hw.2 hkind] at hv
        exact hv
      obtain ⟨hle, hfirst⟩ := cellValue_of_raw hcell hsmall hu16
      have hhead : leBytes (width kind) (cellValue kind cell) = leBytes (width kind) (value i) ↔
          KeepsRid kind (value i) := by
        rw [← hfirst]
        constructor
        · intro h
          rw [← leNat_leBytes (Nat.lt_of_le_of_lt hle hv), h, leNat_leBytes hv]
        · intro h
          rw [h]
      have hsplit : encodeCells width (kind :: kinds) (cell, cells) =
          rawBytes value ((kind :: kinds).map width) i ↔
            leBytes (width kind) (cellValue kind cell) = leBytes (width kind) (value i) ∧
              encodeCells width kinds cells = rawBytes value (kinds.map width) (i + 1) := by
        constructor
        · intro h
          exact List.append_inj h (by rw [leBytes_length, leBytes_length])
        · rintro ⟨h, h'⟩
          rw [encodeCells, List.map_cons, rawBytes, h, h']
      rw [hsplit, hhead, hrest]
      constructor
      · rintro ⟨hkeeps, hkeeps'⟩ j k hk
        cases j with
        | zero =>
            cases hk
            exact hkeeps
        | succ j =>
            have h := hkeeps' j k hk
            rwa [Nat.add_assoc, Nat.add_comm 1 j] at h
      · intro h
        refine ⟨h 0 kind rfl, fun j k hk => ?_⟩
        rw [Nat.add_assoc, Nat.add_comm 1 j]
        exact h (j + 1) k hk

namespace Tables

variable {t : Tables} {table : TableId}

theorem width_le (h : StreamHeader) (kind : ColumnKind) :
    h.width kind ≤ 4 ∧ (kind = .u16 → h.width kind = 2) := by
  refine ⟨?_, ?_⟩
  · rcases columnWidth_eq kind h.rowCounts h.stringsWide h.guidsWide h.blobsWide with hw | hw
    · rw [StreamHeader.width, hw]
      decide
    · rw [StreamHeader.width, hw]
  · rintro rfl
    rfl

/-- A column of a row is the bytes at its place. -/
theorem LaidOut.columnValue_eq {h : StreamHeader} {start rid column : Nat} (hl : t.LaidOut h start)
    (hrow : t.HasRow table rid) (hcolumn : column < (columnWidths h table).length) :
    t.columnValue table rid column =
      leNat ((((t.data.drop (t.rowStart table rid)).take (rowSizeOf h table)).drop
        ((columnWidths h table).take column).sum).take (columnWidths h table)[column]) ∧
      t.columnValue table rid column < 256 ^ (columnWidths h table)[column] := by
  have hcol : column < (columnsOf table).length := by rwa [columnWidths_length] at hcolumn
  have hraw := hl.raw_eq hrow hcol
  have hlayout := hl.layout_eq table
  obtain ⟨hfits, _⟩ := column_fits h table hcol
  have hsize := rowSizeOf_le h table
  have hoffset := getD_columnOffsets (columnWidths h table) 0 column hcolumn
  rw [Nat.zero_add] at hoffset
  have hwidth : (columnWidths h table).getD column 0 = (columnWidths h table)[column] :=
    List.getD_eq_getElem _ _ hcolumn
  -- a row is shorter than what a byte counts, so the offsets are kept whole
  have hsum : ((columnWidths h table).take column).sum ≤ rowSizeOf h table :=
    (List.take_sublist _ _).sum_le_sum fun _ _ => Nat.zero_le _
  rw [Nat.mod_eq_of_lt (by omega)] at hoffset
  have hread : readUintAt ((t.data.drop (t.rowStart table rid)).take (rowSizeOf h table))
      ((columnWidths h table).take column).sum (columnWidths h table)[column] =
        some (t.columnValue table rid column) := by
    rw [← hoffset, ← hwidth, ← hraw, RowCursor.raw, rowCursor, hlayout]
    rfl
  exact ⟨eq_leNat_of_readUintAt hread, (readUintAt_lt_pow hread).2⟩

/-- The bytes of a row are its raw columns. -/
theorem LaidOut.rawBytes_row {h : StreamHeader} {start rid : Nat} (hl : t.LaidOut h start)
    (hrow : t.HasRow table rid) :
    rawBytes (t.columnValue table rid) (columnWidths h table) 0 =
      (t.data.drop (t.rowStart table rid)).take (rowSizeOf h table) := by
  refine rawBytes_eq (hl.rowBytes_length hrow) fun j hj => ?_
  rw [Nat.zero_add]
  exact (hl.columnValue_eq hrow hj).1

/-- Of no coded column of the row is the RID cut. -/
def RowKeepsRids (t : Tables) (table : TableId) (rid : Nat) : Prop :=
  ∀ column kind, (columnsOf table)[column]? = some (.coded kind) →
    t.columnValue table rid column / 2 ^ kind.tagBits < 2 ^ 24

theorem LaidOut.encodeCells_row_iff {h : StreamHeader} {start rid : Nat} (hl : t.LaidOut h start)
    {row : Row table} (hok : t.row table rid = .ok row) :
    encodeCells h.width (columnsOf table) row =
      (t.data.drop (t.rowStart table rid)).take (rowSizeOf h table) ↔ t.RowKeepsRids table rid := by
  obtain ⟨hrow, hholds⟩ := hl.row_holds hok
  have hwidths : (columnsOf table).map h.width = columnWidths h table := rfl
  have hlt (j : Nat) (kind : ColumnKind) (hj : (columnsOf table)[j]? = some kind) :
      t.columnValue table rid (0 + j) < 256 ^ h.width kind := by
    obtain ⟨hjlt, hkind⟩ := List.getElem?_eq_some_iff.mp hj
    have hj : j < (columnWidths h table).length := by rwa [columnWidths_length]
    have hwidth : (columnWidths h table)[j] = h.width kind := by
      rw [← hkind]
      exact List.getElem_map ..
    rw [← hwidth, Nat.zero_add]
    exact (hl.columnValue_eq hrow _).2
  have hiff := encodeCells_eq_iff hholds (fun kind _ => width_le h kind) hlt
  rw [hwidths, hl.rawBytes_row hrow] at hiff
  rw [hiff]
  constructor
  · intro hkeeps column kind hcolumn
    have hcut := hkeeps column _ hcolumn
    rwa [Nat.zero_add] at hcut
  · intro hkeeps column kind hcolumn
    rw [Nat.zero_add]
    cases kind with
    | coded kind => exact hkeeps column kind hcolumn
    | _ => trivial

/-- A row that decodes is written as its own bytes exactly when none of its coded columns holds an
RID that a token has no room for. -/
theorem row_reencodes {data : List UInt8} {base : Nat} {uncompressed : Bool} {s : Strictness}
    {ds ds' : List Diagnostic} (hrun : parse data base uncompressed s ds = .ok (t, ds')) {rid : Nat}
    {row : Row table} (hok : t.row table rid = .ok row) :
    t.rowBytes table rid = .ok (encodeCells (declaredHeader data).width (columnsOf table) row) ↔
      t.RowKeepsRids table rid := by
  have hl := (parse_spec hrun).1.laidOut
  have hrow := (hl.row_holds hok).1
  rw [← hl.encodeCells_row_iff hok, hl.rowBytes_eq hrow, Except.ok.injEq]
  exact eq_comm

/-- The row of a generic parameter, whose owner is coded, is written as its bytes. -/
theorem row_reencodes_keyed : ∃ t ds' row, parse keyedStream 0 false .strict [] = .ok (t, ds') ∧
    t.row .genericParam 1 = .ok row ∧ t.rowBytes .genericParam 1 =
      .ok (encodeCells (declaredHeader keyedStream).width (columnsOf .genericParam) row) := by
  have hok : (parse keyedStream 0 false .strict []).toOption.map (fun x =>
      ((x.1.row .genericParam 1).toOption.isSome, x.1.columnValue .genericParam 1 2)) =
        some (true, 2) := by
    decide +kernel
  obtain ⟨⟨t, ds'⟩, hrun, hvalues⟩ := Option.map_eq_some_iff.mp hok
  obtain ⟨hsome, howner⟩ : (t.row .genericParam 1).toOption.isSome = true ∧
      t.columnValue .genericParam 1 2 = 2 := by simpa using hvalues
  obtain ⟨row, hrow⟩ := Option.isSome_iff_exists.mp hsome
  have hrow := ok_of_toOption hrow
  refine ⟨t, ds', row, ok_of_toOption hrun, hrow, ?_⟩
  refine (row_reencodes (ok_of_toOption hrun) hrow).mpr fun column kind hcolumn => ?_
  have hcoded : column = 2 := by
    rcases column with _ | _ | _ | _ | column
    · cases hcolumn
    · cases hcolumn
    · rfl
    · cases hcolumn
    · cases hcolumn
  subst hcoded
  cases hcolumn
  rw [howner]
  decide

/-! ## The stream -/

/-- The rows of a table, written out one after another. -/
def encodeRows (h : StreamHeader) (table : TableId) (rows : List (Row table)) : List UInt8 :=
  rows.flatMap (encodeCells h.width (columnsOf table))

/-- The header that an accepted stream was read from. -/
theorem header_of_parse {data : List UInt8} {base : Nat} {uncompressed : Bool} {s : Strictness}
    {ds ds' : List Diagnostic} (hrun : parse data base uncompressed s ds = .ok (t, ds')) :
    ∃ (raw : RawHeader) (body : List UInt8), data = raw.bytes ++ body ∧
      t.majorVersion = raw.majorVersion ∧ t.minorVersion = raw.minorVersion ∧
      t.heapSizes = raw.heapSizes ∧ t.valid = raw.valid.toNat ∧
      t.declaredSorted = raw.sorted.toNat ∧ t.extraData = raw.extra := by
  obtain ⟨t₀, ds₀, bits, hlayouts, _, rfl⟩ := parse_ok hrun
  obtain ⟨h, dsh, r, st, hheader, _, rfl⟩ := parseLayouts_ok hlayouts
  obtain ⟨bs, hrest, rfl, raw, rfl, rfl⟩ := reads_readStreamHeader base s ds _ _ _ hheader
  rw [Reader.cursor_rest, Reader.rest_new] at hrest
  exact ⟨raw, _, hrest, rfl, rfl, rfl, rfl, rfl, rfl⟩

/-- The bytes of a table are its rows, written out again. -/
theorem LaidOut.encodeRows_table {h : StreamHeader} {start : Nat} (hl : t.LaidOut h start)
    {rows : List (Row table)}
    (hrows : (List.range' 1 (t.rowCount table)).map (t.row table) = rows.map .ok)
    (hkeeps : ∀ rid, t.HasRow table rid → t.RowKeepsRids table rid) :
    encodeRows h table rows =
      (t.data.drop (t.layout table).dataOffset).take (t.layout table).byteSize := by
  have hcount : t.rowCount table = rows.length := by
    have hlen := congrArg List.length hrows
    rwa [List.length_map, List.length_range', List.length_map] at hlen
  have hrow (i : Nat) (hi : i < rows.length) : t.row table (i + 1) = .ok rows[i] := by
    have hget := congrArg (fun l => l[i]?) hrows
    simp only [List.getElem?_map] at hget
    rw [List.getElem?_range' (by omega), List.getElem?_eq_getElem hi] at hget
    simpa [Nat.add_comm] using hget
  have hchunks := flatMap_chunks (t.data.drop (t.layout table).dataOffset)
    (t.layout table).rowSize (t.rowCount table)
  have hbytes : (t.layout table).byteSize = t.rowCount table * (t.layout table).rowSize := rfl
  rw [hbytes, ← hchunks, hcount, encodeRows, List.flatMap_def, List.flatMap_def]
  congr 1
  apply List.ext_getElem
  · rw [List.length_map, List.length_map, List.length_range]
  · intro i hi _
    have hlt : i < rows.length := by rwa [List.length_map] at hi
    have hhas : t.HasRow table (i + 1) := ⟨Nat.succ_pos i, by omega⟩
    have hcells := (hl.encodeCells_row_iff (hrow i hlt)).mpr (hkeeps _ hhas)
    rw [List.getElem_map, List.getElem_map, List.getElem_range, hcells, List.drop_drop,
      hl.rowSize_eq]
    rw [rowStart, hl.rowSize_eq, Nat.add_sub_cancel]

/-- An accepted stream of which every row decodes, with every RID kept, is its header, then its
rows written out again table by table, then what is left behind them. -/
theorem stream_reencoded {data : List UInt8} {base : Nat} {uncompressed : Bool} {s : Strictness}
    {ds ds' : List Diagnostic} (hrun : parse data base uncompressed s ds = .ok (t, ds'))
    (rows : (table : TableId) → List (Row table))
    (hrows : ∀ table, (List.range' 1 (t.rowCount table)).map (t.row table) = (rows table).map .ok)
    (hkeeps : ∀ table rid, t.HasRow table rid → t.RowKeepsRids table rid) :
    ∃ (raw : RawHeader) (rest : List UInt8),
      data = raw.bytes ++ (TableId.all.flatMap (fun table =>
        encodeRows (declaredHeader data) table (rows table)) ++ rest) ∧
      t.majorVersion = raw.majorVersion ∧ t.minorVersion = raw.minorVersion ∧
      t.heapSizes = raw.heapSizes ∧ t.valid = raw.valid.toNat ∧
      t.declaredSorted = raw.sorted.toNat ∧ t.extraData = raw.extra := by
  obtain ⟨raw, body, hdata, hfields⟩ := header_of_parse hrun
  have hparsed := (parse_spec hrun).1
  have hl := hparsed.laidOut
  have htables : TableId.all.flatMap (fun table =>
      encodeRows (declaredHeader data) table (rows table)) =
        (data.drop (headerEnd data)).take
          (TableId.all.map fun table => (t.layout table).byteSize).sum := by
    rw [← flatMap_segments TableId.all_nodup]
    refine List.flatMap_congr fun table _ => ?_
    rw [hl.encodeRows_table (hrows table) (hkeeps table), hl.dataOffset_eq, hparsed.data_eq]
  have hend : headerEnd data = raw.bytes.length := by
    rw [hdata, headerEnd_bytes]
  have hbody : data.drop (headerEnd data) = body := by
    rw [hend]
    conv_lhs => rw [hdata]
    rw [List.drop_left]
  refine ⟨raw, body.drop (TableId.all.map fun table => (t.layout table).byteSize).sum, ?_, hfields⟩
  rw [htables, hbody, List.take_append_drop]
  exact hdata

/-- The stream of three nested classes, taken apart. -/
theorem stream_reencoded_nestedClasses : ∃ (raw : RawHeader) (rest : List UInt8),
    TableStream.nestedClasses.bytes ++ [0xFF] = raw.bytes ++ (TableId.all.flatMap (fun table =>
      encodeRows (declaredHeader (TableStream.nestedClasses.bytes ++ [0xFF])) table
        (TableStream.nestedClasses.rows table)) ++ rest) := by
  obtain ⟨t, ds', hrun⟩ := TableStream.nestedClasses.exists_parse [0xFF] 0 false []
  have hcount := TableStream.nestedClasses.rowCount_eq hrun
  have hall := TableStream.nestedClasses.rows_eq hrun
  have hkeeps (table : TableId) (rid : Nat) (hrow : t.HasRow table rid) :
      t.RowKeepsRids table rid := by
    obtain ⟨hone, hle⟩ := hrow
    rw [hcount] at hle
    intro column kind hcolumn
    cases table with
    | nestedClass =>
        rcases column with _ | _ | column
        · cases hcolumn
        · cases hcolumn
        · cases hcolumn
    | _ =>
        have hnone : rid ≤ 0 := hle
        omega
  obtain ⟨raw, rest, hdata, _⟩ :=
    stream_reencoded hrun TableStream.nestedClasses.rows hall hkeeps
  exact ⟨raw, rest, hdata⟩

end Tables

end Cildec
