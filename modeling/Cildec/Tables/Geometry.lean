import Cildec.Lib.Segments
import Cildec.Tables.Stream
import Mathlib.Algebra.Group.Action.Defs
import Mathlib.Algebra.Order.BigOperators.Group.List

/-!
# Table geometry

What the layout loop leaves behind. Each round appends one segment to the tables
already placed (`layoutTables_spec`), so the tables are consecutive segments of the
stream that start after the header and end inside the data, whatever was clamped.
From there on the row accessors are total over the rows that exist.
-/

namespace Cildec

open Wire

/-! ## Columns of a row -/

theorem columnWidth_eq (kind : ColumnKind) (rowCounts : TableId → Nat) (s g b : Bool) :
    columnWidth kind rowCounts s g b = 2 ∨ columnWidth kind rowCounts s g b = 4 := by
  cases kind with
  | u16 => exact .inl rfl
  | u32 => exact .inr rfl
  | string => cases s <;> simp [columnWidth]
  | blob => cases b <;> simp [columnWidth]
  | guid => cases g <;> simp [columnWidth]
  | rid target =>
      simp only [columnWidth]
      split <;> (split <;> simp)
  | coded kind =>
      simp only [columnWidth, CodedIndex.columnWidth]
      split <;> simp

theorem mem_columnWidths {h : StreamHeader} {id : TableId} {w : Nat}
    (hw : w ∈ columnWidths h id) : w = 2 ∨ w = 4 := by
  obtain ⟨kind, _, rfl⟩ := List.mem_map.mp hw
  exact columnWidth_eq kind _ _ _ _

@[simp] theorem columnWidths_length (h : StreamHeader) (id : TableId) :
    (columnWidths h id).length = (columnsOf id).length := List.length_map _

/-- A row is at most 36 bytes: nine columns of four. -/
theorem rowSizeOf_le (h : StreamHeader) (id : TableId) : rowSizeOf h id ≤ 36 := by
  have hsum : (columnWidths h id).sum ≤ (columnWidths h id).length * 4 := by
    have hw := List.sum_le_card_nsmul (columnWidths h id) 4 fun w hw => by
      rcases mem_columnWidths hw with rfl | rfl <;> omega
    rwa [smul_eq_mul] at hw
  have hlen := columnsOf_length_le id
  rw [columnWidths_length] at hsum
  have : maxColumns = 9 := rfl
  exact hsum.trans (by omega)

/-- Every table has a column, so no row is empty. -/
theorem rowSizeOf_ge (h : StreamHeader) (id : TableId) : 2 ≤ rowSizeOf h id := by
  unfold rowSizeOf columnWidths
  cases hcols : columnsOf id with
  | nil => exact absurd hcols (columnsOf_ne_nil id)
  | cons kind kinds =>
      rw [List.map_cons, List.sum_cons]
      rcases columnWidth_eq kind h.rowCounts h.stringsWide h.guidsWide h.blobsWide with e | e <;>
        omega

/-- A column starts where the widths before it end, modulo the byte the offset is
stored in. -/
theorem getD_columnOffsets (widths : List Nat) (offset c : Nat) (h : c < widths.length) :
    (columnOffsets offset widths).getD c 0 = (offset + (widths.take c).sum) % 256 := by
  induction widths generalizing offset c with
  | nil => cases h
  | cons w ws ih =>
      cases c with
      | zero => simp [columnOffsets]
      | succ c =>
          have hc : c < ws.length := by simpa using h
          rw [columnOffsets, List.getD_cons_succ, ih (offset + w) c hc, List.take_succ_cons,
            List.sum_cons, Nat.add_assoc]

/-- A column of a table lies inside the row. -/
theorem column_fits (h : StreamHeader) (id : TableId) {c : Nat}
    (hc : c < (columnsOf id).length) :
    (columnOffsets 0 (columnWidths h id)).getD c 0 + (columnWidths h id).getD c 0 ≤
        rowSizeOf h id ∧
      ((columnWidths h id).getD c 0 = 2 ∨ (columnWidths h id).getD c 0 = 4) := by
  have hlen : c < (columnWidths h id).length := by simpa using hc
  have hget : (columnWidths h id).getD c 0 = (columnWidths h id)[c] :=
    List.getD_eq_getElem _ _ hlen
  have hsplit : (columnWidths h id).sum =
      ((columnWidths h id).take c).sum + ((columnWidths h id)[c] +
        ((columnWidths h id).drop (c + 1)).sum) := by
    conv_lhs => rw [← List.take_append_drop c (columnWidths h id)]
    rw [List.sum_append, List.drop_eq_getElem_cons hlen, List.sum_cons]
  have hsize := rowSizeOf_le h id
  have hsum : rowSizeOf h id = (columnWidths h id).sum := rfl
  have hmem := mem_columnWidths (List.getElem_mem hlen)
  rw [getD_columnOffsets _ _ _ hlen, hget]
  exact ⟨by omega, hmem⟩

/-! ## One round of the layout loop -/

/-- The layout of a table that keeps `count` rows at `dataOffset`. -/
def layoutAt (h : StreamHeader) (id : TableId) (count dataOffset : Nat) : TableLayout :=
  { rowCount := count, rowSize := rowSizeOf h id, columnCount := (columnsOf id).length
    columnOffsets := columnOffsets 0 (columnWidths h id)
    columnWidths := columnWidths h id, dataOffset }

/-- The rows that are kept fit in what is left of the stream. -/
theorem clampRowCount_fits {dataLen base : Nat} {s : Strictness} {rowSize count : Nat}
    {st : LayoutState} {kept : Nat} {exhausted : Bool} {ds : List Diagnostic}
    (h : clampRowCount dataLen base s rowSize count st = .ok (kept, exhausted, ds)) :
    kept * rowSize ≤ dataLen - st.cursor := by
  simp only [clampRowCount] at h
  split at h
  · split at h
    · cases h
    · cases h
      split
      · simp
      · exact (Nat.mul_le_mul_right _ (Nat.mod_le _ _)).trans (Nat.div_mul_le_self _ _)
  · rename_i hfits
    cases h
    rcases Nat.eq_zero_or_pos count with h0 | hpos
    · simp [h0]
    · simp only [hpos, true_and, not_or, Nat.not_lt] at hfits
      exact hfits.2

theorem layoutTable_ok_iff {dataLen base : Nat} {s : Strictness} {h : StreamHeader}
    {st st' : LayoutState} {id : TableId} :
    layoutTable dataLen base s h st id = .ok st' ↔
      ∃ kept exhausted ds,
        clampRowCount dataLen base s (rowSizeOf h id) (h.rowCounts id) st =
          .ok (kept, exhausted, ds) ∧
        st' = { layouts := Function.update st.layouts id (layoutAt h id kept st.cursor)
                cursor := st.cursor + kept * rowSizeOf h id, exhausted
                diagnostics := ds } := by
  simp only [layoutTable]
  cases hc : clampRowCount dataLen base s (rowSizeOf h id) (h.rowCounts id) st with
  | error e =>
      constructor
      · intro hrun
        cases hrun
      · rintro ⟨_, _, _, hrun, _⟩
        cases hrun
  | ok r =>
      obtain ⟨kept, exhausted, ds⟩ := r
      constructor
      · intro hrun
        cases hrun
        exact ⟨kept, exhausted, ds, rfl, rfl⟩
      · rintro ⟨kept', exhausted', ds', hrun, rfl⟩
        cases hrun
        rfl

theorem layoutTables_cons_ok {dataLen base : Nat} {s : Strictness} {h : StreamHeader}
    {id : TableId} {ids : List TableId} {st st'' : LayoutState}
    (hrun : layoutTables dataLen base s h (id :: ids) st = .ok st'') :
    ∃ st', layoutTable dataLen base s h st id = .ok st' ∧
      layoutTables dataLen base s h ids st' = .ok st'' := by
  unfold layoutTables at hrun
  cases hstep : layoutTable dataLen base s h st id with
  | error e =>
      rw [hstep] at hrun
      cases hrun
  | ok st' =>
      rw [hstep] at hrun
      exact ⟨st', rfl, hrun⟩

/-! ## The whole loop -/

/-- The tables `ids` laid from `start` on: each has its own geometry and begins where
the tables before it end. -/
structure LaidFrom (h : StreamHeader) (start : Nat) (ids : List TableId)
    (layouts : TableId → TableLayout) : Prop where
  layout : ∀ id ∈ ids, layouts id = layoutAt h id (layouts id).rowCount
    (start + offsetOf (fun u => (layouts u).byteSize) ids id)

/-- What the loop does to the state: it lays the tables, moves the cursor past them
and stays inside the data. -/
theorem layoutTables_spec {dataLen base : Nat} {s : Strictness} {h : StreamHeader} :
    ∀ {ids : List TableId} {st st' : LayoutState}, ids.Nodup →
      st.cursor ≤ dataLen → layoutTables dataLen base s h ids st = .ok st' →
      LaidFrom h st.cursor ids st'.layouts ∧
      (∀ id ∉ ids, st'.layouts id = st.layouts id) ∧
      st'.cursor = st.cursor + (ids.map fun u => (st'.layouts u).byteSize).sum ∧
      st'.cursor ≤ dataLen
  | [], st, st', _, hle, hrun => by
      cases hrun
      exact ⟨⟨fun _ hid => absurd hid List.not_mem_nil⟩, fun _ _ => rfl, rfl, hle⟩
  | id :: ids, st, st', hnodup, hle, hrun => by
      obtain ⟨hnotin, hnodup'⟩ := List.nodup_cons.mp hnodup
      obtain ⟨mid, hstep, hrest⟩ := layoutTables_cons_ok hrun
      obtain ⟨kept, exhausted, ds, hclamp, rfl⟩ := layoutTable_ok_iff.mp hstep
      have hfits := clampRowCount_fits hclamp
      have hmid : st.cursor + kept * rowSizeOf h id ≤ dataLen := by omega
      obtain ⟨hlaid, hframe, hcursor, hend⟩ := layoutTables_spec hnodup' hmid hrest
      -- the rest of the loop never touches the table just placed
      have hself : st'.layouts id = layoutAt h id kept st.cursor := by
        rw [hframe id hnotin]
        exact Function.update_self ..
      have hsize : (st'.layouts id).byteSize = kept * rowSizeOf h id := by
        rw [hself]
        rfl
      refine ⟨⟨?_⟩, ?_, ?_, hend⟩
      · intro k hk
        by_cases hik : id = k
        · subst hik
          rw [hself, offsetOf_self]
          rfl
        · have hk' := List.mem_of_ne_of_mem (Ne.symm hik) hk
          rw [hlaid.layout k hk', offsetOf_cons_ne ids hik, hsize, Nat.add_assoc]
          rfl
      · intro k hk
        have hne : k ≠ id := fun he => hk (he ▸ List.mem_cons_self)
        rw [hframe k fun hk' => hk (List.mem_cons_of_mem _ hk')]
        exact Function.update_of_ne hne ..
      · rw [hcursor, List.map_cons, List.sum_cons, hsize]
        simp only
        omega

end Cildec
