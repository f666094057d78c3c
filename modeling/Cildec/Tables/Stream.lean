import Cildec.Tables.Rows
import Mathlib.Logic.Function.Basic

/-!
# The metadata table stream (`src/tables/mod.rs`)

`Tables.parse` reads the stream header and the row counts, computes the geometry of
every table in ascending id order, clamps what does not fit and checks which tables
are ordered by their sort key. Nothing copies row data: a row is decoded on demand
from the stream bytes.

A `u64` bit vector is a `Nat` read with `testBit`. The arrays indexed by table id
are functions of it; a reserved slot is never written.
-/

namespace Cildec

/-- `CTX` of the table stream. -/
def tableStreamContext : String := "table stream"

/-- The parsed `#~` or `#-` stream. -/
structure Tables where
  data : List UInt8
  base : Nat
  majorVersion : UInt8
  minorVersion : UInt8
  heapSizes : UInt8
  valid : Nat
  declaredSorted : Nat
  verifiedSorted : Nat
  uncompressed : Bool
  extraData : Option UInt32
  layouts : TableId → TableLayout

/-! ## Column widths -/

/-- The width of a column, from the row counts and the `HeapSizes` bits. -/
def columnWidth (kind : ColumnKind) (rowCounts : TableId → Nat)
    (stringsWide guidsWide blobsWide : Bool) : Nat :=
  match kind with
  | .u16 => 2
  | .u32 => 4
  | .string => if stringsWide then 4 else 2
  | .guid => if guidsWide then 4 else 2
  | .blob => if blobsWide then 4 else 2
  | .rid target =>
      -- A list column addresses the `*Ptr` table when one is present, and both
      -- tables must be reachable, so the larger row count decides.
      let rows :=
        match target.ptrSource with
        | some ptr => max (rowCounts target) (rowCounts ptr)
        | none => rowCounts target
      if rows < 0x10000 then 2 else 4
  | .coded coded =>
      let maxRows := (coded.tables.filterMap id).foldl (fun m t => max m (rowCounts t)) 0
      coded.columnWidth maxRows

/-- The offset of each column of a row: `u16` sums of the widths before it, stored
in a byte. -/
def columnOffsets : Nat → List Nat → List Nat
  | _, [] => []
  | offset, width :: widths => offset % 256 :: columnOffsets (offset + width) widths

/-! ## The stream header -/

/-- What the header and the row counts declare. -/
structure StreamHeader where
  majorVersion : UInt8
  minorVersion : UInt8
  heapSizes : UInt8
  valid : Nat
  declaredSorted : Nat
  rowCounts : TableId → Nat
  extraData : Option UInt32

def StreamHeader.stringsWide (h : StreamHeader) : Bool := h.heapSizes &&& 0x01 != 0
def StreamHeader.guidsWide (h : StreamHeader) : Bool := h.heapSizes &&& 0x02 != 0
def StreamHeader.blobsWide (h : StreamHeader) : Bool := h.heapSizes &&& 0x04 != 0

/-- `KNOWN_HEAP_BITS`. -/
def knownHeapBits : UInt8 := 0x01 ||| 0x02 ||| 0x04 ||| 0x08 ||| 0x20 ||| 0x40 ||| 0x80

/-- Rejects or reports `HeapSizes` bits the crate ignores. -/
def checkHeapSizes (base : Nat) (strictness : Strictness) (heapSizes : UInt8)
    (diagnostics : List Diagnostic) : Result (List Diagnostic) :=
  if heapSizes &&& ~~~knownHeapBits ≠ 0 then
    if strictness.isStrict then
      .error (Error.new .malformed (base + 6) tableStreamContext)
    else
      .ok (diagnostics ++ [Diagnostic.new .unknownHeapSizeBits (base + 6) heapSizes.toNat])
  else
    .ok diagnostics

/-- Row counts: one `u32` per set bit of `Valid`, in ascending slot order. -/
def readRowCounts (strictness : Strictness) (valid : Nat) :
    List Nat → (TableId → Nat) → List Diagnostic →
      Read ((TableId → Nat) × List Diagnostic)
  | [], counts, diagnostics => return (counts, diagnostics)
  | slot :: slots, counts, diagnostics =>
      if valid.testBit slot then do
        let r ← get
        let offset := r.absolute
        let count ← Reader.u32
        match TableId.fromU8 slot with
        | some id =>
            readRowCounts strictness valid slots (Function.update counts id count.toNat)
              diagnostics
        | none =>
            if count ≠ 0 ∨ strictness.isStrict then
              throw (Error.new .unsupported offset tableStreamContext)
            else
              readRowCounts strictness valid slots counts
                (diagnostics ++ [Diagnostic.new .reservedTablePresent offset slot])
      else
        readRowCounts strictness valid slots counts diagnostics

/-- The dword that `HeapSizes` bit `0x40` announces after the row counts. -/
def readExtraData (heapSizes : UInt8) : Read (Option UInt32) :=
  if heapSizes &&& 0x40 != 0 then do
    let v ← Reader.u32
    return some v
  else return none

/-- Everything before the rows. -/
def readStreamHeader (base : Nat) (strictness : Strictness)
    (diagnostics : List Diagnostic) : Read (StreamHeader × List Diagnostic) := do
  let _reserved ← Reader.u32
  let majorVersion ← Reader.u8
  let minorVersion ← Reader.u8
  let heapSizes ← Reader.u8
  let _reserved2 ← Reader.u8
  let valid ← Reader.u64
  let declaredSorted ← Reader.u64
  let diagnostics ← Wire.ofExcept (checkHeapSizes base strictness heapSizes diagnostics)
  let (rowCounts, diagnostics) ←
    readRowCounts strictness valid.toNat (List.range 64) (fun _ => 0) diagnostics
  let extraData ← readExtraData heapSizes
  return ({ majorVersion, minorVersion, heapSizes, valid := valid.toNat
            declaredSorted := declaredSorted.toNat, rowCounts, extraData }, diagnostics)

/-! ## Table geometry -/

/-- The widths of a table's columns. -/
def columnWidths (h : StreamHeader) (id : TableId) : List Nat :=
  (columnsOf id).map fun kind =>
    columnWidth kind h.rowCounts h.stringsWide h.guidsWide h.blobsWide

/-- The size of one row of a table. -/
def rowSizeOf (h : StreamHeader) (id : TableId) : Nat := (columnWidths h id).sum

/-- The state of the layout loop. -/
structure LayoutState where
  layouts : TableId → TableLayout
  cursor : Nat
  exhausted : Bool
  diagnostics : List Diagnostic

/-- The number of rows of a table that are kept, whether the stream has run out and
what was reported. -/
def clampRowCount (dataLen base : Nat) (strictness : Strictness) (rowSize count : Nat)
    (st : LayoutState) : Result (Nat × Bool × List Diagnostic) :=
  let available := dataLen - st.cursor
  let needed := count * rowSize
  if 0 < count ∧ (st.exhausted ∨ available < needed) then
    if strictness.isStrict then
      .error (Error.new .truncated (base + st.cursor) tableStreamContext)
    else
      .ok (if rowSize = 0 then 0 else available / rowSize % 2 ^ 32, true,
        st.diagnostics ++ [Diagnostic.new .streamRangeClamped (base + st.cursor) needed])
  else
    .ok (count, st.exhausted, st.diagnostics)

/-- One round of the layout loop. The cursor stays inside the data, so its
saturating sum is a plain one. -/
def layoutTable (dataLen base : Nat) (strictness : Strictness) (h : StreamHeader)
    (st : LayoutState) (id : TableId) : Result LayoutState := do
  let widths := columnWidths h id
  let rowSize := rowSizeOf h id
  let (count, exhausted, diagnostics) ←
    clampRowCount dataLen base strictness rowSize (h.rowCounts id) st
  let layout : TableLayout :=
    { rowCount := count, rowSize, columnCount := (columnsOf id).length
      columnOffsets := columnOffsets 0 widths, columnWidths := widths
      dataOffset := st.cursor }
  return { layouts := Function.update st.layouts id layout
           cursor := st.cursor + layout.byteSize, exhausted, diagnostics }

/-- The layout loop over `ids`. -/
def layoutTables (dataLen base : Nat) (strictness : Strictness) (h : StreamHeader) :
    List TableId → LayoutState → Result LayoutState
  | [], st => .ok st
  | id :: ids, st => do
      let st ← layoutTable dataLen base strictness h st id
      layoutTables dataLen base strictness h ids st

/-- The column a sorted table is ordered by (`src/tables/lookup.rs`). -/
def sortKeyColumn : TableId → Option Nat
  | .interfaceImpl => some 0
  | .constant => some 1
  | .customAttribute => some 0
  | .fieldMarshal => some 0
  | .declSecurity => some 1
  | .classLayout => some 2
  | .fieldLayout => some 1
  | .eventMap => some 0
  | .propertyMap => some 0
  | .methodSemantics => some 2
  | .methodImpl => some 0
  | .implMap => some 1
  | .fieldRva => some 1
  | .nestedClass => some 0
  | .genericParam => some 2
  | .genericParamConstraint => some 0
  | .localScope => some 0
  | .stateMachineMethod => some 0
  | .customDebugInformation => some 0
  | _ => none

namespace Tables

/-! ## Accessors -/

/-- The computed layout of a table. -/
def layout (t : Tables) (table : TableId) : TableLayout := t.layouts table

/-- The number of rows in a table. -/
def rowCount (t : Tables) (table : TableId) : Nat := (t.layouts table).rowCount

/-- The `Sorted` bitvector marks the table sorted. -/
def isDeclaredSorted (t : Tables) (table : TableId) : Bool :=
  t.declaredSorted.testBit table.toU8

/-- The table has a sort key and its rows really are ordered. -/
def isSorted (t : Tables) (table : TableId) : Bool := t.verifiedSorted.testBit table.toU8

/-- The bytes of one row, by 1-based RID. -/
def rowBytes (t : Tables) (table : TableId) (rid : Nat) : Result (List UInt8) :=
  let layout := t.layout table
  if rid = 0 ∨ layout.rowCount < rid then
    .error (Error.new .outOfRange t.base table.name)
  else
    let start := layout.dataOffset + (rid - 1) * layout.rowSize
    let stop := start + layout.rowSize
    match Wire.slice? t.data start stop with
    | some bytes => .ok bytes
    | none => .error (Error.new .truncated (satAdd t.base start) table.name)

/-- Decodes one row without applying any `*Ptr` indirection. -/
def row (t : Tables) (table : TableId) (rid : Nat) : Result (Row table) := do
  let layout := t.layout table
  let bytes ← t.rowBytes table rid
  let start := layout.dataOffset + (rid - 1) * layout.rowSize
  let cursor : RowCursor := { bytes, layout, column := 0, base := satAdd t.base start }
  match (readCells (columnsOf table)).run cursor with
  | .ok cells _ => return cells
  | .error e _ => throw e

/-- Reads one raw column value of a row, without decoding it. -/
def rawColumn (t : Tables) (table : TableId) (rid column : Nat) : Result Nat := do
  let layout := t.layout table
  if layout.columnCount ≤ column then
    throw (Error.new .outOfRange t.base table.name)
  else do
    let bytes ← t.rowBytes table rid
    match readUintAt bytes (layout.columnOffsets.getD column 0)
        (layout.columnWidths.getD column 0) with
    | some value => return value
    | none => throw (Error.new .truncated t.base table.name)

/-! ## Sortedness -/

/-- The rows `rids` continue a non-decreasing run of `column` after `previous`. The
scan stops at the first descent. -/
def sortedFrom (t : Tables) (table : TableId) (column : Nat) :
    Nat → List Nat → Result Bool
  | _, [] => .ok true
  | previous, rid :: rids => do
      let value ← t.rawColumn table rid column
      if value < previous then return false
      else sortedFrom t table column value rids

/-- One round of `verify_sortedness`. -/
def verifyTable (t : Tables) (strictness : Strictness) (id : TableId) (bits : Nat)
    (diagnostics : List Diagnostic) : Result (Nat × List Diagnostic) :=
  match sortKeyColumn id with
  | none => .ok (bits, diagnostics)
  | some column =>
      let count := t.rowCount id
      if count ≤ 1 then .ok (bits ||| 1 <<< id.toU8, diagnostics)
      else do
        let previous ← t.rawColumn id 1 column
        let sorted ← t.sortedFrom id column previous (List.range' 2 (count - 1))
        if sorted then return (bits ||| 1 <<< id.toU8, diagnostics)
        else if strictness.isStrict ∧ t.isDeclaredSorted id then
          throw (Error.new .malformed t.base id.name)
        else
          return (bits, diagnostics ++ [Diagnostic.new .tableNotSorted t.base id.toU8])

/-- The loop of `verify_sortedness` over `ids`. -/
def verifyTables (t : Tables) (strictness : Strictness) :
    List TableId → Nat → List Diagnostic → Result (Nat × List Diagnostic)
  | [], bits, diagnostics => .ok (bits, diagnostics)
  | id :: ids, bits, diagnostics => do
      let (bits, diagnostics) ← t.verifyTable strictness id bits diagnostics
      t.verifyTables strictness ids bits diagnostics

/-- Which tables with a sort key are ordered by it. -/
def verifySortedness (t : Tables) (strictness : Strictness)
    (diagnostics : List Diagnostic) : Result (Nat × List Diagnostic) :=
  t.verifyTables strictness TableId.all 0 diagnostics

/-! ## Parsing -/

/-- `Tables::parse` up to the sortedness check, with no table verified. -/
def parseLayouts (data : List UInt8) (base : Nat) (uncompressed : Bool)
    (strictness : Strictness) (diagnostics : List Diagnostic) :
    Result (Tables × List Diagnostic) :=
  match (readStreamHeader base strictness diagnostics).run
      (Reader.new data base tableStreamContext) with
  | .error e _ => .error e
  | .ok (h, diagnostics) r => do
      let st ← layoutTables data.length base strictness h TableId.all
        { layouts := fun _ => .default, cursor := r.position, exhausted := false
          diagnostics }
      return ({ data, base, majorVersion := h.majorVersion
                minorVersion := h.minorVersion, heapSizes := h.heapSizes
                valid := h.valid, declaredSorted := h.declaredSorted
                verifiedSorted := 0, uncompressed, extraData := h.extraData
                layouts := st.layouts }, st.diagnostics)

/-- Parses a table stream; `base` is its absolute offset in the input. -/
def parse (data : List UInt8) (base : Nat) (uncompressed : Bool)
    (strictness : Strictness) (diagnostics : List Diagnostic) :
    Result (Tables × List Diagnostic) := do
  let (tables, diagnostics) ←
    parseLayouts data base uncompressed strictness diagnostics
  let (verified, diagnostics) ← tables.verifySortedness strictness diagnostics
  return ({ tables with verifiedSorted := verified }, diagnostics)

end Tables

end Cildec
