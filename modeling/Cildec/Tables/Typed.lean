import Cildec.Tables.Sorted

/-!
# Typed rows and raw columns

A typed row and `raw_column` read the same bytes: the cells of a row that decodes are
its raw columns, each read as its kind says (`row_holds`). A row without coded columns
always decodes (`row_ok`).
-/

namespace Cildec

open Wire

/-- The raw value of a column of the row under the cursor. -/
def RowCursor.raw (c : RowCursor) (i : Nat) : Option Nat :=
  readUintAt c.bytes (c.layout.columnOffsets.getD i 0) (c.layout.columnWidths.getD i 0)

/-- A cell is what a raw value reads as. -/
def CellOfRaw : (kind : ColumnKind) → kind.Cell → Nat → Prop
  | .u16, cell, v => cell = UInt16.ofNat v
  | .u32, cell, v => cell = UInt32.ofNat v
  | .string, cell, v => cell = StringIndex.mk (UInt32.ofNat v)
  | .blob, cell, v => cell = BlobIndex.mk (UInt32.ofNat v)
  | .guid, cell, v => cell = GuidIndex.mk (UInt32.ofNat v)
  | .rid target, cell, v => cell = (Rid.mk (UInt32.ofNat v) : Rid target)
  | .coded kind, cell, v => ∃ offset, kind.decode v offset = .ok cell

/-- The cells from column `i` on are what the raw values read as. -/
def HoldsRaw (value : Nat → Nat) : (kinds : List ColumnKind) → Cells kinds → Nat → Prop
  | [], _, _ => True
  | kind :: kinds, (cell, cells), i =>
      CellOfRaw kind cell (value i) ∧ HoldsRaw value kinds cells (i + 1)

namespace RowCursor

/-- Inversion of a column read. -/
theorem uint_ok {c c' : RowCursor} {v : Nat} (hrun : uint.run c = .ok v c') :
    c.raw c.column = some v ∧ c' = { c with column := c.column + 1 } := by
  simp only [uint, EStateM.run_bind, EStateM.run_get] at hrun
  split at hrun
  · cases hrun
  · simp only [EStateM.run_bind, EStateM.run_set] at hrun
    split at hrun
    · rename_i value hvalue
      cases hrun
      exact ⟨hvalue, rfl⟩
    · cases hrun

theorem uint_run_of_raw {c : RowCursor} {v : Nat} (hcount : c.column < c.layout.columnCount)
    (hraw : c.raw c.column = some v) :
    uint.run c = .ok v { c with column := c.column + 1 } := by
  unfold raw at hraw
  simp only [uint, EStateM.run_bind, EStateM.run_get, if_neg (Nat.not_le.mpr hcount),
    EStateM.run_set, hraw, EStateM.run_pure]

end RowCursor

/-- A cell that is read is what its raw value reads as. -/
theorem readCell_ok {kind : ColumnKind} {cell : kind.Cell} {c c' : RowCursor}
    (hrun : (readCell kind).run c = .ok cell c') :
    ∃ v, c.raw c.column = some v ∧ CellOfRaw kind cell v ∧
      c' = { c with column := c.column + 1 } := by
  cases kind with
  | coded kind =>
      simp only [readCell, RowCursor.coded] at hrun
      obtain ⟨_, _, hget, hrun⟩ := run_bind_ok_iff.mp hrun
      cases hget
      obtain ⟨v, c₁, huint, hrun⟩ := run_bind_ok_iff.mp hrun
      obtain ⟨hraw, rfl⟩ := RowCursor.uint_ok huint
      cases hdecode : kind.decode v (satAdd c.base (c.layout.columnOffsets.getD c.column 0)) with
      | error e =>
          rw [hdecode] at hrun
          cases hrun
      | ok token =>
          rw [hdecode] at hrun
          cases hrun
          exact ⟨v, hraw, ⟨_, hdecode⟩, rfl⟩
  | _ =>
      obtain ⟨v, c₁, huint, hrun⟩ := run_bind_ok_iff.mp hrun
      obtain ⟨hraw, rfl⟩ := RowCursor.uint_ok huint
      cases hrun
      exact ⟨v, hraw, rfl, rfl⟩

/-- The cells that are read are what the raw columns read as. -/
theorem readCells_ok : ∀ {kinds : List ColumnKind} {cells : Cells kinds} {c c' : RowCursor},
    (readCells kinds).run c = .ok cells c' →
      HoldsRaw (fun i => (c.raw i).getD 0) kinds cells c.column
  | [], _, _, _, _ => trivial
  | kind :: kinds, (cell, cells), c, c', hrun => by
      obtain ⟨cell', c₁, hcell, hrun⟩ := run_bind_ok_iff.mp hrun
      obtain ⟨cells', c₂, hcells, hrun⟩ := run_bind_ok_iff.mp hrun
      cases hrun
      obtain ⟨v, hraw, hof, rfl⟩ := readCell_ok hcell
      refine ⟨?_, readCells_ok hcells⟩
      simp only [hraw, Option.getD_some]
      exact hof

/-- The kinds whose cells can fail to decode. -/
def ColumnKind.isCoded : ColumnKind → Bool
  | .coded _ => true
  | _ => false

/-- A cell that is not coded is read from any raw value. -/
theorem readCell_uncoded {kind : ColumnKind} {c : RowCursor} {v : Nat}
    (huncoded : kind.isCoded = false) (hcount : c.column < c.layout.columnCount)
    (hraw : c.raw c.column = some v) :
    ∃ cell, (readCell kind).run c = .ok cell { c with column := c.column + 1 } := by
  have huint := RowCursor.uint_run_of_raw hcount hraw
  cases kind with
  | coded kind => cases huncoded
  | _ => exact ⟨_, (run_bind_of_ok huint).trans rfl⟩

theorem readCells_uncoded : ∀ (kinds : List ColumnKind) (c : RowCursor),
    (∀ kind ∈ kinds, kind.isCoded = false) →
    c.column + kinds.length ≤ c.layout.columnCount →
    (∀ i, c.column ≤ i → i < c.column + kinds.length → ∃ v, c.raw i = some v) →
    ∃ cells c', (readCells kinds).run c = .ok cells c'
  | [], c, _, _, _ => ⟨(), c, rfl⟩
  | kind :: kinds, c, huncoded, hcount, hraw => by
      rw [List.length_cons] at hcount hraw
      obtain ⟨v, hv⟩ := hraw c.column (Nat.le_refl _) (by omega)
      obtain ⟨cell, hcell⟩ := readCell_uncoded (huncoded kind List.mem_cons_self)
        (by omega) hv
      obtain ⟨cells, c', hcells⟩ := readCells_uncoded kinds { c with column := c.column + 1 }
        (fun k hk => huncoded k (List.mem_cons_of_mem _ hk)) (by simpa using (by omega))
        (fun i hi hi' => hraw i (by simp at hi; omega) (by simp at hi'; omega))
      exact ⟨(cell, cells), c', (run_bind_of_ok hcell).trans ((run_bind_of_ok hcells).trans rfl)⟩

namespace Tables

/-- The cursor `row` decodes from. -/
def rowCursor (t : Tables) (table : TableId) (rid : Nat) (bytes : List UInt8) : RowCursor :=
  { bytes, layout := t.layout table, column := 0
    base := satAdd t.base ((t.layout table).dataOffset + (rid - 1) * (t.layout table).rowSize) }

namespace LaidOut

variable {t : Tables} {h : StreamHeader} {start : Nat} {table : TableId} {rid : Nat}

/-- A row decodes from its bytes. -/
theorem row_run (hl : t.LaidOut h start) (hrow : t.HasRow table rid) :
    t.row table rid =
      match (readCells (columnsOf table)).run (t.rowCursor table rid
        ((t.data.drop (t.rowStart table rid)).take (rowSizeOf h table))) with
      | .ok cells _ => .ok cells
      | .error e _ => .error e := by
  simp only [row, hl.rowBytes_eq hrow, bind, Except.bind]
  rfl

theorem row_out_of_range (hrow : ¬ t.HasRow table rid) :
    t.row table rid = .error (Error.new .outOfRange t.base table.name) := by
  simp only [row, rowBytes_out_of_range hrow, bind, Except.bind]

/-- The cursor of a row reads its raw columns. -/
theorem raw_eq (hl : t.LaidOut h start) (hrow : t.HasRow table rid) {column : Nat}
    (hcol : column < (columnsOf table).length) :
    (t.rowCursor table rid
      ((t.data.drop (t.rowStart table rid)).take (rowSizeOf h table))).raw column =
        some (t.columnValue table rid column) := by
  have hvalue := hl.rawColumn_eq hrow hcol
  have hcount : ¬ (t.layout table).columnCount ≤ column := by
    rw [hl.columnCount_eq]
    omega
  simp only [rawColumn, if_neg hcount, hl.rowBytes_eq hrow, bind, Except.bind] at hvalue
  split at hvalue
  · rename_i value hread
    cases hvalue
    exact hread
  · cases hvalue

theorem columnValue_lt (hl : t.LaidOut h start) (hrow : t.HasRow table rid) {column : Nat}
    (hcol : column < (columnsOf table).length) : t.columnValue table rid column < 2 ^ 32 := by
  obtain ⟨value, hvalue, hlt⟩ := hl.rawColumn_ok hrow hcol
  rw [hl.rawColumn_eq hrow hcol] at hvalue
  cases hvalue
  exact hlt

/-- Raw values that agree on the columns read are as good as each other. -/
theorem holdsRaw_congr {value value' : Nat → Nat} :
    ∀ {kinds : List ColumnKind} {cells : Cells kinds} {i : Nat},
      (∀ j, i ≤ j → j < i + kinds.length → value j = value' j) →
      HoldsRaw value kinds cells i → HoldsRaw value' kinds cells i
  | [], _, _, _, _ => trivial
  | kind :: kinds, (cell, cells), i, heq, hholds => by
      have hhead := heq i (Nat.le_refl _) (by simp)
      refine ⟨hhead ▸ hholds.1, holdsRaw_congr ?_ hholds.2⟩
      intro j hj hj'
      exact heq j (by omega) (by rw [List.length_cons]; omega)

/-- A row that decodes holds its raw columns. -/
theorem row_holds (hl : t.LaidOut h start) {row : Row table}
    (hok : t.row table rid = .ok row) :
    t.HasRow table rid ∧
      HoldsRaw (fun i => t.columnValue table rid i) (columnsOf table) row 0 := by
  have hrow : t.HasRow table rid := by
    by_contra hno
    rw [row_out_of_range hno] at hok
    cases hok
  refine ⟨hrow, ?_⟩
  rw [hl.row_run hrow] at hok
  split at hok
  · rename_i cells c' hrun
    cases hok
    refine holdsRaw_congr ?_ (readCells_ok hrun)
    intro j _ hj
    have hcol : j < (columnsOf table).length := by simpa [rowCursor] using hj
    rw [hl.raw_eq hrow hcol]
    rfl
  · cases hok

/-- A row without coded columns decodes. -/
theorem row_ok (hl : t.LaidOut h start) (hrow : t.HasRow table rid)
    (huncoded : ∀ kind ∈ columnsOf table, kind.isCoded = false) :
    ∃ row, t.row table rid = .ok row := by
  have hcount : (t.layout table).columnCount = (columnsOf table).length := hl.columnCount_eq table
  have hraw : ∀ i, 0 ≤ i → i < 0 + (columnsOf table).length →
      ∃ v, (t.rowCursor table rid
        ((t.data.drop (t.rowStart table rid)).take (rowSizeOf h table))).raw i = some v := by
    intro i _ hi
    exact ⟨_, hl.raw_eq hrow (by omega)⟩
  have hfits : 0 + (columnsOf table).length ≤ (t.layout table).columnCount := by omega
  obtain ⟨cells, c', hrun⟩ := readCells_uncoded (columnsOf table) (t.rowCursor table rid _)
    huncoded hfits hraw
  refine ⟨cells, ?_⟩
  rw [hl.row_run hrow, hrun]

end LaidOut

end Tables

end Cildec
