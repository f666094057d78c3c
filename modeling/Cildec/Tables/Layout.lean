import Cildec.Reader
import Cildec.Tables.Coded

/-!
# Columns and row cursors (`src/tables/mod.rs`)

The computed geometry of a table, and the cursor that reads the columns of one
row in declaration order.
-/

namespace Cildec

/-- What one column of a table holds. -/
inductive ColumnKind where
  | u16 | u32 | string | blob | guid
  | rid (target : TableId)
  | coded (kind : CodedIndex)
  deriving DecidableEq, Repr

/-- The computed geometry of one table. The two column arrays hold as many entries
as the table has columns; the source pads them with zeros to `MAX_COLUMNS`. -/
structure TableLayout where
  rowCount : Nat
  rowSize : Nat
  columnCount : Nat
  columnOffsets : List Nat
  columnWidths : List Nat
  dataOffset : Nat
  deriving DecidableEq, Repr

namespace TableLayout

/-- `TableLayout::default`. -/
def default : TableLayout := ⟨0, 0, 0, [], [], 0⟩

/-- The total size of the table in bytes. -/
def byteSize (layout : TableLayout) : Nat := layout.rowCount * layout.rowSize

end TableLayout

/-- A cursor that walks the columns of one row. -/
structure RowCursor where
  bytes : List UInt8
  layout : TableLayout
  column : Nat
  base : Nat

namespace RowCursor

/-- Reads the next column as a zero-extended unsigned value. -/
def uint : EStateM Error RowCursor Nat := do
  let c ← get
  let index := c.column
  if c.layout.columnCount ≤ index then
    throw (Error.new .malformed c.base "table row")
  else do
    let offset := c.layout.columnOffsets.getD index 0
    let width := c.layout.columnWidths.getD index 0
    set { c with column := c.column + 1 }
    match readUintAt c.bytes offset width with
    | some value => return value
    | none => throw (Error.new .truncated (satAdd c.base offset) "table row")

/-- Reads the next column and decodes it as a coded index. -/
def coded (kind : CodedIndex) : EStateM Error RowCursor Token := do
  let c ← get
  let offset := c.layout.columnOffsets.getD c.column 0
  let value ← uint
  Wire.ofExcept (kind.decode value (satAdd c.base offset))

end RowCursor

end Cildec
