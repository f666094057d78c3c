import Cildec.Tables.Geometry
import Cildec.Tables.Header
import Mathlib.Data.Nat.Log

/-!
# Writing a table stream (ECMA-335 II.24.2.6)

The format, from the writer's side: a `TableStream` is a list of typed rows for every
table, and `TableStream.bytes` its serialisation with the column widths the standard
prescribes. Nothing here is translated from the parser; the parser is measured against
it.
-/

namespace Cildec

open Wire

/-! ## Column widths -/

/-- The tag bits a coded index over `n` tables needs. -/
def tagSize (kind : CodedIndex) : Nat := Nat.clog 2 kind.tables.length

/-- The width of a heap index. -/
def heapIndexWidth (heapSizes bit : UInt8) : Nat := if heapSizes &&& bit != 0 then 4 else 2

/-- The width of a column of a stream with `rows` rows in each table. -/
def specColumnWidth (heapSizes : UInt8) (rows : TableId → Nat) : ColumnKind → Nat
  | .u16 => 2
  | .u32 => 4
  | .string => heapIndexWidth heapSizes 0x01
  | .guid => heapIndexWidth heapSizes 0x02
  | .blob => heapIndexWidth heapSizes 0x04
  | .rid target => if rows target < 2 ^ 16 then 2 else 4
  | .coded kind =>
      if ∀ table ∈ kind.tables.filterMap id, rows table < 2 ^ (16 - tagSize kind) then 2
      else 4

theorem specColumnWidth_cases (heapSizes : UInt8) (rows : TableId → Nat) (kind : ColumnKind) :
    specColumnWidth heapSizes rows kind = 2 ∨ specColumnWidth heapSizes rows kind = 4 := by
  cases kind with
  | u16 => exact .inl rfl
  | u32 => exact .inr rfl
  | rid target =>
      simp only [specColumnWidth]
      split <;> simp
  | coded kind =>
      simp only [specColumnWidth]
      split <;> simp
  | _ =>
      simp only [specColumnWidth, heapIndexWidth]
      split <;> simp

/-- Every width the format prescribes holds a 16-bit value. -/
theorem lt_specColumnWidth {heapSizes : UInt8} {rows : TableId → Nat} {v : Nat}
    (hv : v < 2 ^ 16) (kind : ColumnKind) : v < 256 ^ specColumnWidth heapSizes rows kind := by
  rcases specColumnWidth_cases heapSizes rows kind with h | h <;> rw [h] <;> omega

/-- A `Valid` mask is checked bit by bit: none is set from 64 on. -/
theorem valid_known_of_low {valid : UInt64}
    (hlow : ∀ slot < 64, valid.toNat.testBit slot → (TableId.fromU8 slot).isSome)
    (slot : Nat) (h : valid.toNat.testBit slot) : (TableId.fromU8 slot).isSome := by
  refine hlow slot ?_ h
  by_contra hge
  have hlt : valid.toNat < 2 ^ slot :=
    Nat.lt_of_lt_of_le valid.toNat_lt (Nat.pow_le_pow_right (by decide) (Nat.le_of_not_lt hge))
  rw [Nat.testBit_lt_two_pow hlt] at h
  cases h

/-! ## Cells and rows -/

/-- The raw value of a coded column: the RID above the tag of its table. -/
def codedValue (kind : CodedIndex) (token : Token) : Nat :=
  token.rid * 2 ^ tagSize kind + kind.tables.idxOf token.table

/-- The raw value of a column. -/
def cellValue : (kind : ColumnKind) → kind.Cell → Nat
  | .u16, v => UInt16.toNat v
  | .u32, v => UInt32.toNat v
  | .string, v => (StringIndex.value v).toNat
  | .blob, v => (BlobIndex.value v).toNat
  | .guid, v => (GuidIndex.value v).toNat
  | .rid _, v => (Rid.value v).toNat
  | .coded kind, token => codedValue kind token

/-- A coded column holds a token of one of the tables of its kind. -/
def CellOk : (kind : ColumnKind) → kind.Cell → Prop
  | .coded kind, token => ∃ table, Token.table token = some table ∧ some table ∈ kind.tables
  | _, _ => True

/-- The cells of a row are well formed and fit their columns. -/
def CellsFit (width : ColumnKind → Nat) : (kinds : List ColumnKind) → Cells kinds → Prop
  | [], _ => True
  | kind :: kinds, (cell, cells) =>
      CellOk kind cell ∧ cellValue kind cell < 256 ^ width kind ∧ CellsFit width kinds cells

/-- The bytes of a row: its columns one after another. -/
def encodeCells (width : ColumnKind → Nat) : (kinds : List ColumnKind) → Cells kinds →
    List UInt8
  | [], _ => []
  | kind :: kinds, (cell, cells) =>
      leBytes (width kind) (cellValue kind cell) ++ encodeCells width kinds cells

theorem encodeCells_length (width : ColumnKind → Nat) :
    ∀ (kinds : List ColumnKind) (cells : Cells kinds),
      (encodeCells width kinds cells).length = (kinds.map width).sum
  | [], _ => rfl
  | kind :: kinds, (cell, cells) => by
      rw [encodeCells, List.length_append, leBytes_length, encodeCells_length width kinds cells,
        List.map_cons, List.sum_cons]

/-! ## Streams -/

/-- A table stream: typed rows for every table and the header fields that are free. -/
structure TableStream where
  reserved : UInt32
  majorVersion : UInt8
  minorVersion : UInt8
  heapSizes : UInt8
  reserved2 : UInt8
  valid : UInt64
  sorted : UInt64
  extra : UInt32
  rows : (table : TableId) → List (Row table)
  /-- Only the bits `0x01`, `0x02`, `0x04` and `0x40` are used. -/
  heapSizes_bits : heapSizes &&& ~~~(0x01 ||| 0x02 ||| 0x04 ||| 0x40) = 0
  /-- `Valid` marks known tables, and every table that has rows. -/
  valid_known : ∀ slot, valid.toNat.testBit slot → (TableId.fromU8 slot).isSome
  valid_rows : ∀ table, rows table ≠ [] → valid.toNat.testBit table.toU8
  /-- A row count is a `u32`. -/
  rows_lt : ∀ table, (rows table).length < 2 ^ 32
  /-- A `*Ptr` table is empty or as long as its target. -/
  ptr_rows : ∀ table ptr, table.ptrSource = some ptr →
    rows ptr = [] ∨ (rows ptr).length = (rows table).length
  fits : ∀ table, ∀ row ∈ rows table,
    CellsFit (specColumnWidth heapSizes fun t => (rows t).length) (columnsOf table) row

namespace TableStream

variable (ts : TableStream)

/-- The width of a column of the stream. -/
def width : ColumnKind → Nat := specColumnWidth ts.heapSizes fun t => (ts.rows t).length

/-- The row count a slot declares. -/
def slotRows (slot : Nat) : UInt32 :=
  match TableId.fromU8 slot with
  | some table => UInt32.ofNat (ts.rows table).length
  | none => 0

/-- The header of the stream. -/
def raw : RawHeader where
  reserved := ts.reserved
  majorVersion := ts.majorVersion
  minorVersion := ts.minorVersion
  heapSizes := ts.heapSizes
  reserved2 := ts.reserved2
  valid := ts.valid
  sorted := ts.sorted
  counts := ts.slotRows
  extra := if ts.heapSizes &&& 0x40 != 0 then some ts.extra else none
  extra_isSome := by
    cases ts.heapSizes &&& 0x40 != 0 <;> rfl

/-- The rows of a table. -/
def tableBytes (table : TableId) : List UInt8 :=
  (ts.rows table).flatMap (encodeCells ts.width (columnsOf table))

/-- The serialised stream: header, row counts, optional dword, then all rows in
ascending table order. -/
def bytes : List UInt8 := ts.raw.bytes ++ TableId.all.flatMap ts.tableBytes

/-- The size of a row of a table. -/
def rowSize (table : TableId) : Nat := ((columnsOf table).map ts.width).sum

theorem tableBytes_length (table : TableId) :
    (ts.tableBytes table).length = (ts.rows table).length * ts.rowSize table :=
  length_flatMap_const fun row _ => encodeCells_length ts.width (columnsOf table) row

/-! ## The header the stream declares -/

theorem slotRows_toU8 (table : TableId) :
    (ts.slotRows table.toU8).toNat = (ts.rows table).length := by
  rw [slotRows, TableId.fromU8_toU8]
  exact UInt32.toNat_ofNat_of_lt' (ts.rows_lt table)

/-- The header declares the length of every list of rows. -/
theorem rowCounts_eq (table : TableId) :
    ts.raw.header.rowCounts table = (ts.rows table).length := by
  refine countsAt_eq ts.slotRows_toU8 (fun table hne => ts.valid_rows table ?_) table
  intro hnil
  exact hne (congrArg List.length hnil)

/-! ## The widths the parser computes -/

theorem tagSize_eq (kind : CodedIndex) : tagSize kind = kind.tagBits := by
  cases kind <;> decide

theorem foldl_max_lt {rows : TableId → Nat} {n : Nat} (tables : List TableId) (m : Nat) :
    tables.foldl (fun m t => max m (rows t)) m < n ↔ m < n ∧ ∀ t ∈ tables, rows t < n := by
  induction tables generalizing m with
  | nil => simp
  | cons t ts ih =>
      rw [List.foldl_cons, ih]
      simp only [max_lt_iff, List.forall_mem_cons, and_assoc]

/-- Under the rule for `*Ptr` tables the parser computes the widths of the standard. -/
theorem columnWidth_eq_spec (heapSizes : UInt8) {rows : TableId → Nat}
    (hptr : ∀ table ptr, table.ptrSource = some ptr → rows ptr = 0 ∨ rows ptr = rows table)
    (kind : ColumnKind) :
    columnWidth kind rows (heapSizes &&& 0x01 != 0) (heapSizes &&& 0x02 != 0)
      (heapSizes &&& 0x04 != 0) = specColumnWidth heapSizes rows kind := by
  cases kind with
  | u16 => rfl
  | u32 => rfl
  | string => rfl
  | guid => rfl
  | blob => rfl
  | rid target =>
      simp only [columnWidth, specColumnWidth]
      cases htarget : target.ptrSource with
      | none => rfl
      | some ptr =>
          have hmax : max (rows target) (rows ptr) = rows target := by
            rcases hptr target ptr htarget with h | h
            · rw [h]
              simp
            · rw [h]
              simp
          simp only [hmax]
          rfl
  | coded kind =>
      have hpos : 0 < 2 ^ (16 - kind.tagBits) := Nat.two_pow_pos _
      simp only [columnWidth, CodedIndex.columnWidth, CodedIndex.smallRowLimit, specColumnWidth,
        tagSize_eq, Nat.one_shiftLeft, foldl_max_lt, hpos, true_and]

theorem columnWidth_eq_width (kind : ColumnKind) :
    columnWidth kind ts.raw.header.rowCounts ts.raw.header.stringsWide
      ts.raw.header.guidsWide ts.raw.header.blobsWide = ts.width kind := by
  have hcounts : ts.raw.header.rowCounts = fun t => (ts.rows t).length :=
    funext ts.rowCounts_eq
  rw [hcounts]
  refine columnWidth_eq_spec ts.heapSizes ?_ kind
  intro table ptr hptr
  rcases ts.ptr_rows table ptr hptr with h | h
  · exact .inl (by rw [h]; rfl)
  · exact .inr h

theorem columnWidths_eq (table : TableId) :
    columnWidths ts.raw.header table = (columnsOf table).map ts.width :=
  List.map_congr_left fun kind _ => ts.columnWidth_eq_width kind

theorem rowSizeOf_eq (table : TableId) : rowSizeOf ts.raw.header table = ts.rowSize table := by
  rw [rowSizeOf, columnWidths_eq, rowSize]

theorem width_eq (kind : ColumnKind) : ts.width kind = 2 ∨ ts.width kind = 4 := by
  rw [← ts.columnWidth_eq_width]
  exact columnWidth_eq ..

end TableStream

end Cildec
