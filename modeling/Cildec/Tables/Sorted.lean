import Cildec.Tables.Access
import Mathlib.Data.List.Chain
import Mathlib.Tactic.IntervalCases

/-!
# The sortedness check

`verify_sortedness` scans each table with a sort key and stops at the first descent.
`verifySortedness_spec` says what its bits mean: the bit of a table is set exactly when
the table has a sort key and its keys are non-decreasing over all its rows.
-/

namespace Cildec

namespace Tables

/-- The value of a column, of a row that exists. -/
def columnValue (t : Tables) (table : TableId) (rid column : Nat) : Nat :=
  (t.rawColumn table rid column).toOption.getD 0

/-- The keys of all rows of a table, in row order. -/
def keys (t : Tables) (table : TableId) (column : Nat) : List Nat :=
  (List.range' 1 (t.rowCount table)).map fun rid => t.columnValue table rid column

/-- The table has a sort key and its keys never decrease. -/
def KeysSorted (t : Tables) (table : TableId) : Prop :=
  ∃ column, sortKeyColumn table = some column ∧ (t.keys table column).Pairwise (· ≤ ·)

/-- A sort key is a column of its table. -/
theorem sortKeyColumn_lt {table : TableId} {column : Nat}
    (h : sortKeyColumn table = some column) : column < (columnsOf table).length := by
  cases table <;> cases h <;> decide

theorem hasRow_of_mem_range' {t : Tables} {table : TableId} {rid : Nat}
    (h : rid ∈ List.range' 1 (t.rowCount table)) : t.HasRow table rid := by
  rw [List.mem_range'_1] at h
  exact ⟨h.1, by omega⟩

namespace LaidOut

variable {t : Tables} {h : StreamHeader} {start : Nat}

theorem rawColumn_eq (hl : t.LaidOut h start) {table : TableId} {rid column : Nat}
    (hrow : t.HasRow table rid) (hcol : column < (columnsOf table).length) :
    t.rawColumn table rid column = .ok (t.columnValue table rid column) := by
  obtain ⟨value, hvalue, _⟩ := hl.rawColumn_ok hrow hcol
  rw [columnValue, hvalue]
  rfl

/-- The scan returns whether the keys go on without a descent. -/
theorem sortedFrom_eq (hl : t.LaidOut h start) {table : TableId} {column : Nat}
    (hcol : column < (columnsOf table).length) {rids : List Nat}
    (hrids : ∀ rid ∈ rids, t.HasRow table rid) (previous : Nat) :
    t.sortedFrom table column previous rids = .ok (decide
      ((previous :: rids.map fun rid => t.columnValue table rid column).IsChain (· ≤ ·))) := by
  induction rids generalizing previous with
  | nil => simp [sortedFrom]
  | cons rid rids ih =>
      have hvalue := hl.rawColumn_eq (hrids rid List.mem_cons_self) hcol
      have htail := ih fun x hx => hrids x (List.mem_cons_of_mem _ hx)
      simp only [sortedFrom, hvalue, bind, Except.bind]
      by_cases hlt : t.columnValue table rid column < previous
      · rw [if_pos hlt]
        have hdescent : ¬ previous ≤ t.columnValue table rid column := Nat.not_le.mpr hlt
        simp [pure, Except.pure, hdescent]
      · rw [if_neg hlt, htail]
        have hle : previous ≤ t.columnValue table rid column := Nat.not_lt.mp hlt
        simp [hle]

theorem keys_of_le_one {t : Tables} {table : TableId} (column : Nat)
    (hcount : t.rowCount table ≤ 1) : (t.keys table column).Pairwise (· ≤ ·) := by
  unfold keys
  interval_cases hn : t.rowCount table <;> simp

theorem keys_cons {t : Tables} {table : TableId} (column : Nat)
    (hcount : 1 < t.rowCount table) :
    t.keys table column = t.columnValue table 1 column ::
      (List.range' 2 (t.rowCount table - 1)).map fun rid => t.columnValue table rid column := by
  obtain ⟨n, hn⟩ : ∃ n, t.rowCount table = n + 1 := ⟨t.rowCount table - 1, by omega⟩
  rw [keys, hn, List.range'_succ, List.map_cons, Nat.add_sub_cancel]

/-- One round sets the bit of the table if its keys are sorted, and otherwise leaves the
bits alone or rejects a table the stream declares sorted. -/
theorem verifyTable_spec (hl : t.LaidOut h start) (s : Strictness) (id : TableId)
    (bits : Nat) (ds : List Diagnostic) :
    (t.KeysSorted id ∧ ∃ ds', t.verifyTable s id bits ds = .ok (bits ||| 1 <<< id.toU8, ds')) ∨
      (¬ t.KeysSorted id ∧ ((∃ ds', t.verifyTable s id bits ds = .ok (bits, ds')) ∨
        (s.isStrict ∧
          t.verifyTable s id bits ds = .error (Error.new .malformed t.base id.name)))) := by
  unfold verifyTable
  cases hkey : sortKeyColumn id with
  | none =>
      refine .inr ⟨?_, .inl ⟨ds, rfl⟩⟩
      rintro ⟨column, hcolumn, _⟩
      rw [hkey] at hcolumn
      cases hcolumn
  | some column =>
      have hsorted : t.KeysSorted id ↔ (t.keys id column).Pairwise (· ≤ ·) := by
        constructor
        · rintro ⟨column', hcolumn', hpair⟩
          rw [hkey] at hcolumn'
          cases hcolumn'
          exact hpair
        · exact fun hpair => ⟨column, hkey, hpair⟩
      rw [hsorted]
      -- one row alone is sorted
      by_cases hcount : t.rowCount id ≤ 1
      · simp only [if_pos hcount]
        exact .inl ⟨keys_of_le_one column hcount, ds, rfl⟩
      · have hcol := sortKeyColumn_lt hkey
        have hrow : t.HasRow id 1 := ⟨Nat.le_refl 1, by omega⟩
        have hfirst := hl.rawColumn_eq hrow hcol
        have hrest : ∀ rid ∈ List.range' 2 (t.rowCount id - 1), t.HasRow id rid := by
          intro rid hrid
          rw [List.mem_range'_1] at hrid
          exact ⟨by omega, by omega⟩
        have hscan := hl.sortedFrom_eq hcol hrest (t.columnValue id 1 column)
        rw [← keys_cons column (by omega)] at hscan
        simp only [if_neg hcount, hfirst, hscan, bind, Except.bind, List.isChain_iff_pairwise]
        by_cases hpair : (t.keys id column).Pairwise (· ≤ ·)
        · rw [decide_eq_true hpair]
          exact .inl ⟨hpair, ds, rfl⟩
        · rw [decide_eq_false hpair]
          refine .inr ⟨hpair, ?_⟩
          by_cases hstrict : s.isStrict ∧ t.isDeclaredSorted id
          · exact .inr ⟨hstrict.1, if_pos hstrict⟩
          · exact .inl ⟨_, if_neg hstrict⟩

/-- The bits after the loop are the bits before and those of the sorted tables met. -/
theorem verifyTables_spec (hl : t.LaidOut h start) (s : Strictness) :
    ∀ (ids : List TableId) (bits : Nat) (ds : List Diagnostic),
      (∀ bits' ds', t.verifyTables s ids bits ds = .ok (bits', ds') → ∀ table,
        bits'.testBit table.toU8 ↔ bits.testBit table.toU8 ∨ (table ∈ ids ∧ t.KeysSorted table)) ∧
      (∀ e, t.verifyTables s ids bits ds = .error e → e.kind = .malformed ∧ s.isStrict)
  | [], bits, ds => by
      refine ⟨fun bits' ds' hrun table => ?_, fun e hrun => by cases hrun⟩
      cases hrun
      simp
  | id :: ids, bits, ds => by
      rcases hl.verifyTable_spec s id bits ds with ⟨hsorted, ds1, hround⟩ |
        ⟨hsorted, ⟨ds1, hround⟩ | ⟨hstrict, hround⟩⟩
      · obtain ⟨hok, herr⟩ := verifyTables_spec hl s ids (bits ||| 1 <<< id.toU8) ds1
        simp only [verifyTables, hround, bind, Except.bind]
        refine ⟨fun bits' ds' hrun table => ?_, herr⟩
        rw [hok bits' ds' hrun table, Nat.testBit_or, Nat.one_shiftLeft, Bool.or_eq_true,
          Nat.testBit_two_pow]
        by_cases htable : id = table
        · subst htable
          simp [hsorted]
        · have hne : id.toU8 ≠ table.toU8 := fun he => htable (TableId.toU8_injective he)
          simp [hne, Ne.symm htable]
      · obtain ⟨hok, herr⟩ := verifyTables_spec hl s ids bits ds1
        simp only [verifyTables, hround, bind, Except.bind]
        refine ⟨fun bits' ds' hrun table => ?_, herr⟩
        rw [hok bits' ds' hrun table]
        by_cases htable : id = table
        · subst htable
          simp [hsorted]
        · simp [Ne.symm htable]
      · simp only [verifyTables, hround, bind, Except.bind]
        refine ⟨?_, ?_⟩
        · intro bits' ds' hrun
          cases hrun
        · intro e hrun
          cases hrun
          exact ⟨rfl, hstrict⟩

/-- The verified bit of a table says that its keys are sorted. -/
theorem verifySortedness_spec (hl : t.LaidOut h start) {s : Strictness}
    {ds ds' : List Diagnostic} {bits : Nat}
    (hrun : t.verifySortedness s ds = .ok (bits, ds')) (table : TableId) :
    bits.testBit table.toU8 ↔ t.KeysSorted table := by
  rw [(hl.verifyTables_spec s TableId.all 0 ds).1 bits ds' hrun table]
  simp [TableId.mem_all]

/-- The check rejects a stream only in strict mode and for what it declares sorted: no row
is missing. -/
theorem verifySortedness_error (hl : t.LaidOut h start) {s : Strictness}
    {ds : List Diagnostic} {e : Error} (hrun : t.verifySortedness s ds = .error e) :
    e.kind = .malformed ∧ s.isStrict :=
  (hl.verifyTables_spec s TableId.all 0 ds).2 e hrun

end LaidOut

end Tables

end Cildec
