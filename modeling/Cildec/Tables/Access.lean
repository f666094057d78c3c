import Cildec.Tables.Geometry
import Cildec.Tables.Header

/-!
# Row access after parsing

`Tables.LaidOut` is the invariant `parse` establishes: the tables are consecutive
segments of the stream, from the end of the header on. Under it the row accessors
succeed exactly on the rows that exist, no two rows share a byte, and the branches
that report a truncated row are never taken.
-/

namespace Cildec

open Wire

namespace Tables

/-- The first byte of a row. -/
def rowStart (t : Tables) (table : TableId) (rid : Nat) : Nat :=
  (t.layout table).dataOffset + (rid - 1) * (t.layout table).rowSize

/-- The byte after a row. -/
def rowEnd (t : Tables) (table : TableId) (rid : Nat) : Nat :=
  t.rowStart table rid + (t.layout table).rowSize

/-- The rows that exist. -/
def HasRow (t : Tables) (table : TableId) (rid : Nat) : Prop :=
  1 ≤ rid ∧ rid ≤ t.rowCount table

/-- The tables lie one after another from `start` on and end inside the data. -/
structure LaidOut (t : Tables) (h : StreamHeader) (start : Nat) : Prop where
  laid : LaidFrom h start TableId.all t.layouts
  ends : start + (TableId.all.map fun u => (t.layout u).byteSize).sum ≤ t.data.length

namespace LaidOut

variable {t : Tables} {h : StreamHeader} {start : Nat}

theorem layout_eq (hl : t.LaidOut h start) (table : TableId) :
    t.layout table = layoutAt h table (t.rowCount table)
      (start + offsetOf (fun u => (t.layout u).byteSize) TableId.all table) :=
  hl.laid.layout table (TableId.mem_all table)

theorem rowSize_eq (hl : t.LaidOut h start) (table : TableId) :
    (t.layout table).rowSize = rowSizeOf h table := by
  rw [hl.layout_eq table]
  rfl

theorem dataOffset_eq (hl : t.LaidOut h start) (table : TableId) :
    (t.layout table).dataOffset =
      start + offsetOf (fun u => (t.layout u).byteSize) TableId.all table := by
  rw [hl.layout_eq table]
  rfl

theorem columnCount_eq (hl : t.LaidOut h start) (table : TableId) :
    (t.layout table).columnCount = (columnsOf table).length := by
  rw [hl.layout_eq table]
  rfl

theorem rowSize_pos (hl : t.LaidOut h start) (table : TableId) :
    0 < (t.layout table).rowSize := by
  rw [hl.rowSize_eq]
  have := rowSizeOf_ge h table
  omega

/-- A row lies inside the segment of its table. -/
theorem row_in_table {table : TableId} {rid : Nat} (hrow : t.HasRow table rid) :
    (t.layout table).dataOffset ≤ t.rowStart table rid ∧
      t.rowEnd table rid ≤ (t.layout table).dataOffset + (t.layout table).byteSize := by
  obtain ⟨h1, hle⟩ := hrow
  have hmul : (rid - 1 + 1) * (t.layout table).rowSize ≤ (t.layout table).byteSize :=
    Nat.mul_le_mul_right _ (by
      have : rid ≤ (t.layout table).rowCount := hle
      omega)
  rw [Nat.succ_mul] at hmul
  simp only [rowEnd, rowStart]
  omega

/-- Every row starts after the header and ends inside the stream. -/
theorem row_in_stream (hl : t.LaidOut h start) {table : TableId} {rid : Nat}
    (hrow : t.HasRow table rid) :
    start ≤ t.rowStart table rid ∧ t.rowEnd table rid ≤ t.data.length := by
  obtain ⟨hlo, hhi⟩ := row_in_table hrow
  have hoffset := hl.dataOffset_eq table
  have hseg := offsetOf_add_size_le (fun u => (t.layout u).byteSize) (TableId.mem_all table)
  have hends := hl.ends
  omega

/-- Two different rows share no byte. -/
theorem rows_disjoint (hl : t.LaidOut h start) {table table' : TableId} {rid rid' : Nat}
    (hrow : t.HasRow table rid) (hrow' : t.HasRow table' rid')
    (hne : (table, rid) ≠ (table', rid')) :
    t.rowEnd table rid ≤ t.rowStart table' rid' ∨
      t.rowEnd table' rid' ≤ t.rowStart table rid := by
  by_cases htable : table = table'
  · subst htable
    have hrid : rid ≠ rid' := fun he => hne (by rw [he])
    have step : ∀ {a b : Nat}, 1 ≤ a → a < b → t.rowEnd table a ≤ t.rowStart table b := by
      intro a b ha hab
      have hmul : (a - 1 + 1) * (t.layout table).rowSize ≤
          (b - 1) * (t.layout table).rowSize := Nat.mul_le_mul_right _ (by omega)
      rw [Nat.succ_mul] at hmul
      simp only [rowEnd, rowStart]
      omega
    rcases Nat.lt_or_gt_of_ne hrid with hlt | hgt
    · exact .inl (step hrow.1 hlt)
    · exact .inr (step hrow'.1 hgt)
  · have hlo := row_in_table hrow
    have hlo' := row_in_table hrow'
    have hoffset := hl.dataOffset_eq table
    have hoffset' := hl.dataOffset_eq table'
    rcases offsetOf_disjoint (fun u => (t.layout u).byteSize) (TableId.mem_all table)
      (TableId.mem_all table') htable with hd | hd
    · exact .inl (by omega)
    · exact .inr (by omega)

/-! ## The accessors -/

theorem rowBytes_eq (hl : t.LaidOut h start) {table : TableId} {rid : Nat}
    (hrow : t.HasRow table rid) :
    t.rowBytes table rid =
      .ok ((t.data.drop (t.rowStart table rid)).take (rowSizeOf h table)) := by
  obtain ⟨h1, hle⟩ := hrow
  have hin := (hl.row_in_stream ⟨h1, hle⟩).2
  have hcond : ¬(rid = 0 ∨ (t.layout table).rowCount < rid) := by
    have : rid ≤ (t.layout table).rowCount := hle
    omega
  have hslice : slice? t.data (t.rowStart table rid)
      (t.rowStart table rid + (t.layout table).rowSize) = _ := slice?_of_le hin
  simp only [rowStart] at hslice
  simp only [rowBytes, if_neg hcond, hslice, ← hl.rowSize_eq, rowStart]

theorem rowBytes_out_of_range {table : TableId} {rid : Nat} (hrow : ¬ t.HasRow table rid) :
    t.rowBytes table rid = .error (Error.new .outOfRange t.base table.name) := by
  have hcond : rid = 0 ∨ (t.layout table).rowCount < rid := by
    by_contra hno
    have : ¬ (t.layout table).rowCount < rid := fun hlt => hno (.inr hlt)
    exact hrow ⟨by omega, Nat.not_lt.mp this⟩
  simp only [rowBytes, if_pos hcond]

/-- The bytes of a row that exists are a whole row. -/
theorem rowBytes_length (hl : t.LaidOut h start) {table : TableId} {rid : Nat}
    (hrow : t.HasRow table rid) :
    ((t.data.drop (t.rowStart table rid)).take (rowSizeOf h table)).length =
      rowSizeOf h table := by
  have hin := (hl.row_in_stream hrow).2
  rw [rowEnd, hl.rowSize_eq] at hin
  rw [List.length_take, List.length_drop]
  omega

/-- A column of a row that exists has a value. -/
theorem rawColumn_ok (hl : t.LaidOut h start) {table : TableId} {rid column : Nat}
    (hrow : t.HasRow table rid) (hcol : column < (columnsOf table).length) :
    ∃ value, t.rawColumn table rid column = .ok value ∧ value < 2 ^ 32 := by
  obtain ⟨hfits, hwidth⟩ := column_fits h table hcol
  rw [← hl.rowBytes_length hrow] at hfits
  have hread := (readUintAt_isSome_iff hwidth).mpr hfits
  obtain ⟨value, hvalue⟩ := Option.isSome_iff_exists.mp hread
  have hcount : ¬ (t.layout table).columnCount ≤ column := by
    rw [hl.columnCount_eq]
    omega
  have hoffsets : (t.layout table).columnOffsets = columnOffsets 0 (columnWidths h table) := by
    rw [hl.layout_eq table]
    rfl
  have hwidths : (t.layout table).columnWidths = columnWidths h table := by
    rw [hl.layout_eq table]
    rfl
  refine ⟨value, ?_, ?_⟩
  · simp only [rawColumn, if_neg hcount, hl.rowBytes_eq hrow, hoffsets, hwidths, bind,
      Except.bind, hvalue]
    rfl
  · exact readUintAt_lt hvalue

theorem rawColumn_error {table : TableId} {rid column : Nat} (hl : t.LaidOut h start)
    (hno : ¬(t.HasRow table rid ∧ column < (columnsOf table).length)) :
    t.rawColumn table rid column = .error (Error.new .outOfRange t.base table.name) := by
  by_cases hcol : (t.layout table).columnCount ≤ column
  · simp only [rawColumn, if_pos hcol]
    rfl
  · have hrow : ¬ t.HasRow table rid := fun hrow => hno ⟨hrow, by
      rw [hl.columnCount_eq] at hcol
      omega⟩
    simp only [rawColumn, if_neg hcol, rowBytes_out_of_range hrow, bind, Except.bind]

end LaidOut

end Tables

end Cildec
