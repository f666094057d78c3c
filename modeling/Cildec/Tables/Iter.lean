import Cildec.Lib.Iter
import Cildec.Tables.Indirection
import Cildec.Tables.RoundTrip

/-!
# Row iterators (`src/tables/mod.rs`)

`iter` counts through the RIDs of a table, `iter_indirect` through its logical RIDs, which a
`*Ptr` table maps to rows. Both give their size: what `size_hint` says at any time is what is
still to come.

* `rows_iterated`: what the two iterators return in an accepted stream;
* `iterated_decodes_encoded`: over an encoded stream they return the rows that were encoded.
-/

namespace Cildec

open Wire

variable {table : TableId}

/-- The state of a row iterator: the RID that is next, and one past the last. -/
structure RowIter (table : TableId) where
  tables : Tables
  rid : Nat
  stop : Nat

/-- The state of an iterator over logical rows. -/
abbrev IndirectRowIter := RowIter

/-- The step that both iterators make. The RID stays at most `stop`, so it does not overflow. -/
def RowIter.nextWith (rowAt : Tables → Nat → Result (Row table)) (it : RowIter table) :
    Option (Nat × Result (Row table)) × RowIter table :=
  if it.stop ≤ it.rid then (none, it)
  else (some (it.rid, rowAt it.tables it.rid), { it with rid := it.rid + 1 })

/-- `RowIter::next`. -/
def RowIter.next : RowIter table → Option (Nat × Result (Row table)) × RowIter table :=
  RowIter.nextWith fun t rid => t.row table rid

/-- `IndirectRowIter::next`. -/
def IndirectRowIter.next :
    IndirectRowIter table → Option (Nat × Result (Row table)) × IndirectRowIter table :=
  RowIter.nextWith fun t rid => t.rowIndirect table rid

/-- `size_hint`, the lower and the upper bound at once. -/
def RowIter.sizeHint (it : RowIter table) : Checked Nat := u32Sub it.stop it.rid

/-- What an iterator returns: the items in order and then nothing more, and in every state on
the way its size hint counts what is still to come. -/
structure RowIter.Returns (next : RowIter table → Option (Nat × Result (Row table)) × RowIter table)
    (it : RowIter table) (items : List (Nat × Result (Row table))) : Prop where
  yields : ∃ last, Yields next it items last ∧ Exhausted next last
  sized : ∀ s, Reached next it s →
    ∃ rest last, Yields next s rest last ∧ s.sizeHint = .ok rest.length

/-- Both iterators count from where they stand to their end. -/
theorem RowIter.nextWith_returns (rowAt : Tables → Nat → Result (Row table)) (t : Tables)
    (n : Nat) : RowIter.Returns (RowIter.nextWith rowAt) ⟨t, 1, n + 1⟩
      ((List.range' 1 n).map fun rid => (rid, rowAt t rid)) := by
  let state (rid : Nat) : RowIter table := ⟨t, rid, n + 1⟩
  have hitem : ∀ i, i < n + 1 →
      RowIter.nextWith rowAt (state i) = (some (i, rowAt t i), state (i + 1)) := by
    intro i hi
    exact if_neg (Nat.not_le.mpr hi)
  have hstop : RowIter.nextWith rowAt (state (n + 1)) = (none, state (n + 1)) :=
    if_pos (Nat.le_refl _)
  refine ⟨⟨state (n + 1), Yields.counter hitem hstop (by omega), exhausted_of_stays hstop⟩, ?_⟩
  intro s hs
  have hs : Reached (RowIter.nextWith rowAt) (state 1) s := hs
  obtain ⟨i, _, hi, rfl⟩ := hs.counter hitem hstop (by omega)
  refine ⟨_, _, Yields.counter hitem hstop (Nat.add_sub_of_le hi), ?_⟩
  rw [List.length_map, List.length_range']
  exact u32Sub_ok hi

namespace Tables

/-- Iterates every row of a table in RID order, without indirection. -/
def iter (t : Tables) (table : TableId) : Checked (RowIter table) := do
  let stop ← u32Add (t.rowCount table) 1
  return { tables := t, rid := 1, stop }

/-- Iterates every logical row of a table, applying `*Ptr` indirection. -/
def iterIndirect (t : Tables) (table : TableId) : Checked (IndirectRowIter table) := do
  let stop ← u32Add (t.logicalRowCount table) 1
  return { tables := t, rid := 1, stop }

/-- The row that a logical RID stands for. -/
def physicalRid (t : Tables) (table : TableId) (rid : Nat) : Nat :=
  match table.ptrSource with
  | some ptr => if t.rowCount ptr = 0 then rid else t.columnValue ptr rid 0
  | none => rid

theorem iter_returns {t : Tables} (hcount : t.rowCount table + 1 < 2 ^ 32) :
    ∃ it, t.iter table = .ok it ∧ RowIter.Returns RowIter.next it
      ((List.range' 1 (t.rowCount table)).map fun rid => (rid, t.row table rid)) := by
  refine ⟨⟨t, 1, t.rowCount table + 1⟩, ?_, RowIter.nextWith_returns _ t _⟩
  rw [iter, u32Add_ok hcount]
  rfl

namespace LaidOut

variable {t : Tables} {h : StreamHeader} {start : Nat}

/-- A logical row is the row its `*Ptr` row names. -/
theorem rowIndirect_eq (hl : t.LaidOut h start) {rid : Nat}
    (hrid : rid ∈ List.range' 1 (t.logicalRowCount table)) :
    t.rowIndirect table rid = t.row table (t.physicalRid table rid) := by
  have hmem := List.mem_range'_1.mp hrid
  have hresolve : t.resolveIndirection table rid = .ok (t.physicalRid table rid) := by
    unfold physicalRid
    cases hptr : table.ptrSource with
    | none => exact resolveIndirection_self (fun ptr h => by rw [hptr] at h; cases h) rid
    | some ptr =>
        by_cases hcount : t.rowCount ptr = 0
        · simp only [if_pos hcount]
          refine resolveIndirection_self (fun ptr' h => ?_) rid
          rw [hptr] at h
          cases h
          exact hcount
        · rw [logicalRowCount_ptr hptr hcount] at hmem
          simp only [if_neg hcount]
          exact hl.resolveIndirection_ptr hptr ⟨hmem.1, by omega⟩
  rw [rowIndirect, hresolve]
  rfl

theorem logicalRowCount_lt (hl : t.LaidOut h start) (hlen : t.data.length < 2 ^ 32)
    (table : TableId) : t.logicalRowCount table + 1 < 2 ^ 32 := by
  have hsmall (table : TableId) : t.rowCount table + 1 < 2 ^ 32 := by
    have hcount := hl.rowCount_lt hlen table
    omega
  unfold logicalRowCount
  split
  · split
    · exact hsmall _
    · exact hsmall _
  · exact hsmall _

theorem iterIndirect_returns (hl : t.LaidOut h start)
    (hcount : t.logicalRowCount table + 1 < 2 ^ 32) :
    ∃ it, t.iterIndirect table = .ok it ∧ RowIter.Returns IndirectRowIter.next it
      ((List.range' 1 (t.logicalRowCount table)).map fun rid =>
        (rid, t.row table (t.physicalRid table rid))) := by
  refine ⟨⟨t, 1, t.logicalRowCount table + 1⟩, ?_, ?_⟩
  · rw [iterIndirect, u32Add_ok hcount]
    rfl
  · have hreturns := RowIter.nextWith_returns (fun t rid => t.rowIndirect table rid) t
      (t.logicalRowCount table)
    have hitems : (List.range' 1 (t.logicalRowCount table)).map
        (fun rid => (rid, t.rowIndirect table rid)) =
          (List.range' 1 (t.logicalRowCount table)).map
            fun rid => (rid, t.row table (t.physicalRid table rid)) := by
      apply List.map_congr_left
      intro rid hrid
      rw [hl.rowIndirect_eq hrid]
    rw [hitems] at hreturns
    exact hreturns

end LaidOut

/-- In an accepted stream both iterators return every RID of the table once, in order, with its
row, and give their size. The second one reads through the `*Ptr` table, so it returns the same
rows in another order when that table permutes the RIDs. -/
theorem rows_iterated {data : List UInt8} {base : Nat} {uncompressed : Bool} {s : Strictness}
    {ds ds' : List Diagnostic} {t : Tables} (hlen : data.length < 2 ^ 32)
    (hrun : parse data base uncompressed s ds = .ok (t, ds')) (table : TableId) :
    ∃ it it' items items', t.iter table = .ok it ∧ t.iterIndirect table = .ok it' ∧
      RowIter.Returns RowIter.next it items ∧ RowIter.Returns IndirectRowIter.next it' items' ∧
      items = (List.range' 1 (t.rowCount table)).map (fun rid => (rid, t.row table rid)) ∧
      items' = (List.range' 1 (t.logicalRowCount table)).map
        (fun rid => (rid, t.row table (t.physicalRid table rid))) ∧
      (((List.range' 1 (t.logicalRowCount table)).map (t.physicalRid table)).Perm
          (List.range' 1 (t.rowCount table)) →
        (items'.map Prod.snd).Perm (items.map Prod.snd)) := by
  obtain ⟨⟨rfl, _, hl⟩, _⟩ := parse_spec hrun
  have hcount : t.rowCount table + 1 < 2 ^ 32 := by
    have hsmall := hl.rowCount_lt hlen table
    omega
  obtain ⟨it, hit, hreturns⟩ := iter_returns hcount
  obtain ⟨it', hit', hreturns'⟩ := hl.iterIndirect_returns (hl.logicalRowCount_lt hlen table)
  refine ⟨it, it', _, _, hit, hit', hreturns, hreturns', rfl, rfl, ?_⟩
  intro hperm
  have hrows := hperm.map (t.row table)
  rw [List.map_map] at hrows ⊢
  rw [List.map_map]
  exact hrows

/-- The rows of three nested classes. -/
theorem rows_iterated_nestedClass : ∃ t ds' it items,
    parse nestedClassStream 0 false .strict [] = .ok (t, ds') ∧
      t.iter .nestedClass = .ok it ∧ RowIter.Returns RowIter.next it items ∧ items.length = 3 := by
  have hok : (parse nestedClassStream 0 false .strict []).toOption.map
      (fun x => x.1.rowCount .nestedClass) = some 3 := by
    decide +kernel
  obtain ⟨⟨t, ds'⟩, hrun, hcount⟩ := Option.map_eq_some_iff.mp hok
  obtain ⟨it, _, items, _, hit, _, hreturns, _, hitems, _⟩ :=
    rows_iterated (by decide) (ok_of_toOption hrun) .nestedClass
  refine ⟨t, ds', it, items, ok_of_toOption hrun, hit, hreturns, ?_⟩
  rw [hitems, List.length_map, List.length_range']
  exact hcount

end Tables

end Cildec
