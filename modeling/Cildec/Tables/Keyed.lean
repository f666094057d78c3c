import Cildec.Tables.Enclosing
import Cildec.Tables.Parents
import Mathlib.Data.List.Sort

/-!
# Typed lookups (`src/tables/lookup.rs`)

What hangs on a type, a member or a parameter is found by its key: the lookups of one table
are `rows_with_key` and `rows_for_parent` at that table, and some read a column or the row of
the first hit.

* `typed_lookups_find`: the lookups of one row find the first one with the key;
* `genericParams_ordered`: generic parameters come in the order of their numbers;
* `attached_once`: every row is attached to one parent at most, and to its own.
-/

namespace Cildec

open Wire

/-! ## Rows with coded columns -/

/-- A cell can be read from the raw value. -/
def ColumnKind.ReadsFrom : ColumnKind → Nat → Prop
  | .coded kind, v => ∃ token, kind.decode v 0 = .ok token
  | _, _ => True

/-- The cells from column `i` on can be read from the raw values. -/
def ReadsRaw (value : Nat → Nat) : List ColumnKind → Nat → Prop
  | [], _ => True
  | kind :: kinds, i => kind.ReadsFrom (value i) ∧ ReadsRaw value kinds (i + 1)

theorem readCell_run_of_raw {kind : ColumnKind} {c : RowCursor} {v : Nat}
    (hreads : kind.ReadsFrom v) (hcount : c.column < c.layout.columnCount)
    (hraw : c.raw c.column = some v) :
    ∃ cell, (readCell kind).run c = .ok cell { c with column := c.column + 1 } := by
  cases kind with
  | coded kind =>
      obtain ⟨token, hdecode⟩ := hreads
      have huint := RowCursor.uint_run_of_raw hcount hraw
      have hget : (get : EStateM Error RowCursor RowCursor).run c = .ok c c := rfl
      have hanywhere : kind.decode v (satAdd c.base (c.layout.columnOffsets.getD c.column 0)) =
          .ok token := CodedIndex.decode_eq_ok_iff.mpr (CodedIndex.decode_eq_ok_iff.mp hdecode)
      refine ⟨token, (run_bind_of_ok hget).trans ((run_bind_of_ok huint).trans ?_)⟩
      rw [hanywhere]
      rfl
  | _ => exact readCell_uncoded rfl hcount hraw

theorem readCells_run_of_raw (value : Nat → Nat) : ∀ (kinds : List ColumnKind) (c : RowCursor),
    c.column + kinds.length ≤ c.layout.columnCount →
    (∀ i, c.column ≤ i → i < c.column + kinds.length → c.raw i = some (value i)) →
    ReadsRaw value kinds c.column → ∃ cells c', (readCells kinds).run c = .ok cells c'
  | [], c, _, _, _ => ⟨(), c, rfl⟩
  | kind :: kinds, c, hcount, hraw, ⟨hhead, htail⟩ => by
      rw [List.length_cons] at hcount hraw
      obtain ⟨cell, hcell⟩ := readCell_run_of_raw hhead (by omega)
        (hraw c.column (Nat.le_refl _) (by omega))
      obtain ⟨cells, c', hcells⟩ := readCells_run_of_raw value kinds
        { c with column := c.column + 1 } (by simpa using (by omega))
        (fun i hi hi' => hraw i (by simp at hi; omega) (by simp at hi'; omega)) htail
      exact ⟨(cell, cells), c', (run_bind_of_ok hcell).trans ((run_bind_of_ok hcells).trans rfl)⟩

namespace Tables

/-! ## The lookups -/

/-- The content of the first row with a key. -/
def firstWithKey {α : Type} (t : Tables) (table : TableId) (key : Option Nat)
    (read : Nat → Result α) : Checked (Option α) :=
  match key with
  | none => return none
  | some key => do
      match ← t.firstRowWithKey table key with
      | some rid => do
          let a ← Checked.ofResult (read rid)
          return some a
      | none => return none

/-- The compile-time constant of a field, parameter or property. -/
def constantOf (t : Tables) (parent : Token) : Checked (Option (Row .constant)) :=
  t.firstWithKey .constant (sortKeyFor .constant parent) (t.row .constant)

/-- The marshalling descriptor blob index of a field or parameter. -/
def fieldMarshalOf (t : Tables) (parent : Token) : Checked (Option Nat) :=
  t.firstWithKey .fieldMarshal (sortKeyFor .fieldMarshal parent)
    fun rid => t.rawColumn .fieldMarshal rid 1

/-- The RVA of a field initial-data blob. -/
def fieldRvaOf (t : Tables) (field : Nat) : Checked (Option Nat) :=
  t.firstWithKey .fieldRva (some field) fun rid => t.rawColumn .fieldRva rid 0

/-- The explicit byte offset of a field within its type. -/
def fieldLayoutOf (t : Tables) (field : Nat) : Checked (Option Nat) :=
  t.firstWithKey .fieldLayout (some field) fun rid => t.rawColumn .fieldLayout rid 0

/-- The `ClassLayout` row of a type, when it declares one. -/
def classLayoutOf (t : Tables) (typeDef : Nat) : Checked (Option (Row .classLayout)) :=
  t.firstWithKey .classLayout (some typeDef) (t.row .classLayout)

/-- The P/Invoke mapping of a method or field, when it has one. -/
def implMapOf (t : Tables) (member : Token) : Checked (Option (Row .implMap)) :=
  t.firstWithKey .implMap (sortKeyFor .implMap member) (t.row .implMap)

/-- The `EventMap` row for a type. -/
def eventMapOf (t : Tables) (typeDef : Nat) : Checked (Option Nat) :=
  t.firstRowWithKey .eventMap typeDef

/-- The `PropertyMap` row for a type. -/
def propertyMapOf (t : Tables) (typeDef : Nat) : Checked (Option Nat) :=
  t.firstRowWithKey .propertyMap typeDef

/-- The `GenericParamConstraint` RIDs for one generic parameter. -/
def genericParamConstraints (t : Tables) (genericParam : Nat) : Checked (List Nat) :=
  t.rowsWithKey .genericParamConstraint genericParam

/-- The `CustomAttribute` RIDs attached to a metadata item. -/
def customAttributes (t : Tables) (parent : Token) : Checked (List Nat) :=
  t.rowsForParent .customAttribute parent

/-- The `InterfaceImpl` RIDs of a type. -/
def interfaceImpls (t : Tables) (typeDef : Nat) : Checked (List Nat) :=
  t.rowsWithKey .interfaceImpl typeDef

/-- The `MethodImpl` RIDs declared by a type. -/
def methodImpls (t : Tables) (typeDef : Nat) : Checked (List Nat) :=
  t.rowsWithKey .methodImpl typeDef

/-- The `MethodSemantics` RIDs attached to an event or property. -/
def semanticsFor (t : Tables) (association : Token) : Checked (List Nat) :=
  t.rowsForParent .methodSemantics association

/-- The `DeclSecurity` RIDs attached to an item. -/
def declSecurityFor (t : Tables) (parent : Token) : Checked (List Nat) :=
  t.rowsForParent .declSecurity parent

/-- The order of pairs of integers. -/
def pairLe (a b : Nat × Nat) : Bool := decide (a.1 < b.1 ∨ a.1 = b.1 ∧ a.2 ≤ b.2)

/-- A row with its `Number`. -/
def numbered (t : Tables) (rid : Nat) : Checked (Nat × Nat) := do
  let number ← Checked.ofResult (t.rawColumn .genericParam rid 0)
  return (number, rid)

/-- The `GenericParam` RIDs declared by a type or method, in declaration order. -/
def genericParams (t : Tables) (owner : Token) : Checked (List Nat) := do
  let rids ← t.rowsForParent .genericParam owner
  -- `Number` orders the run
  let keyed ← rids.mapM t.numbered
  return (keyed.mergeSort pairLe).map Prod.snd

/-! ## One row -/

/-- What the lookup of one row must return: the content of the first row with the key, or
nothing when no row has it. -/
def Finds {α : Type} (t : Tables) (table : TableId) (column : Nat) (key : Option Nat)
    (read : Nat → Result α) (found : Checked (Option α)) : Prop :=
  (∃ rid a, t.HasRow table rid ∧ key = some (t.columnValue table rid column) ∧
      (∀ rid', t.HasRow table rid' → key = some (t.columnValue table rid' column) → rid ≤ rid') ∧
      read rid = .ok a ∧ found = .ok (some a)) ∨
    ((∀ rid, t.HasRow table rid → key ≠ some (t.columnValue table rid column)) ∧
      found = .ok none)

namespace LaidOut

variable {t : Tables} {h : StreamHeader} {start : Nat} {table : TableId} {column : Nat}

/-- A row decodes when its coded columns do. -/
theorem row_of_reads (hl : t.LaidOut h start) {rid : Nat} (hrow : t.HasRow table rid)
    (hreads : ReadsRaw (t.columnValue table rid) (columnsOf table) 0) :
    ∃ row, t.row table rid = .ok row := by
  have hcount : (t.layout table).columnCount = (columnsOf table).length := hl.columnCount_eq table
  obtain ⟨cells, c', hrun⟩ := readCells_run_of_raw (t.columnValue table rid) (columnsOf table)
    (t.rowCursor table rid ((t.data.drop (t.rowStart table rid)).take (rowSizeOf h table)))
    (by show 0 + _ ≤ (t.layout table).columnCount; omega)
    (fun i _ hi => hl.raw_eq hrow (by simpa [rowCursor] using hi)) hreads
  refine ⟨cells, ?_⟩
  rw [hl.row_run hrow, hrun]

/-- The first row with a key is found by going through the rows. -/
theorem firstRowWithKey_eq (hl : t.LaidOut h start)
    (hlookup : ∀ key, t.rowsWithKey table key = .ok (t.rowsHolding table column key))
    (hcol : column < (columnsOf table).length) (key : Nat) :
    t.firstRowWithKey table key = .ok ((List.range' 1 (t.rowCount table)).find? fun rid =>
      t.columnValue table rid column = key) := by
  rw [firstRowWithKey, hlookup, hl.rowsHolding_eq hcol, ← List.head?_filter]
  rfl

theorem firstWithKey_finds {α : Type} (hl : t.LaidOut h start)
    (hlookup : ∀ key, t.rowsWithKey table key = .ok (t.rowsHolding table column key))
    (hcol : column < (columnsOf table).length) {key : Option Nat} {read : Nat → Result α}
    (hread : ∀ rid, t.HasRow table rid → key = some (t.columnValue table rid column) →
      ∃ a, read rid = .ok a) :
    Finds t table column key read (t.firstWithKey table key read) := by
  cases key with
  | none =>
      refine .inr ⟨?_, rfl⟩
      intro rid _ hkey
      cases hkey
  | some key =>
      have hfirst := hl.firstRowWithKey_eq hlookup hcol key
      cases hfind : (List.range' 1 (t.rowCount table)).find? fun rid =>
          t.columnValue table rid column = key with
      | none =>
          rw [hfind] at hfirst
          refine .inr ⟨?_, ?_⟩
          · intro rid hrow hkey
            have hno := List.find?_eq_none.mp hfind rid (mem_range'_of_hasRow hrow)
            exact hno (decide_eq_true (Option.some.inj hkey).symm)
          · show (t.firstRowWithKey table key >>= _) = _
            rw [hfirst]
            rfl
      | some rid =>
          rw [hfind] at hfirst
          have hrow := hasRow_of_mem_range' (List.mem_of_find?_eq_some hfind)
          obtain ⟨hvalue, before, after, hsplit, hbefore⟩ :=
            List.find?_eq_some_iff_append.mp hfind
          have hkey : t.columnValue table rid column = key := of_decide_eq_true hvalue
          obtain ⟨a, ha⟩ := hread rid hrow (by rw [hkey])
          refine .inl ⟨rid, a, hrow, by rw [hkey], ?_, ha, ?_⟩
          · intro rid' hrow' hkey'
            -- the rows before `rid` have another key, and the rows after it greater RIDs
            have hmem := mem_range'_of_hasRow hrow'
            have hsorted : (List.range' 1 (t.rowCount table)).Pairwise (· < ·) :=
              List.pairwise_lt_range'
            rw [hsplit] at hmem hsorted
            rcases List.mem_append.mp hmem with hin | hin
            · have hno := hbefore rid' hin
              simp only [← Option.some.inj hkey', decide_true, Bool.not_true] at hno
              cases hno
            · rcases List.mem_cons.mp hin with rfl | hafter
              · exact Nat.le_refl _
              · have htail := (List.pairwise_append.mp hsorted).2.1
                exact Nat.le_of_lt ((List.pairwise_cons.mp htail).1 rid' hafter)
          · show (t.firstRowWithKey table key >>= _) = _
            rw [hfirst]
            show (Checked.ofResult (read rid) >>= _) = _
            rw [ha]
            rfl

end LaidOut

/-- A row is looked up by its RID. -/
theorem firstRowWithKey_self (t : Tables) (table : TableId) (key : Nat) :
    t.firstRowWithKey table key = t.firstWithKey table (some key) .ok := by
  show _ = t.firstRowWithKey table key >>= _
  cases t.firstRowWithKey table key with
  | error e => rfl
  | ok found => cases found <;> rfl

/-- In an accepted stream the lookups of one row succeed, and find the first row with the key
when there is one. A key that is a coded index decodes, so the row it leads to does as well. -/
theorem typed_lookups_find {data : List UInt8} {base : Nat} {uncompressed : Bool} {s : Strictness}
    {ds ds' : List Diagnostic} {t : Tables} (hlen : data.length < 2 ^ 32)
    (hrun : parse data base uncompressed s ds = .ok (t, ds')) :
    (∀ parent, Finds t .constant 1 (sortKeyFor .constant parent) (t.row .constant)
      (t.constantOf parent)) ∧
    (∀ parent, Finds t .fieldMarshal 0 (sortKeyFor .fieldMarshal parent)
      (fun rid => t.rawColumn .fieldMarshal rid 1) (t.fieldMarshalOf parent)) ∧
    (∀ field, Finds t .fieldRva 1 (some field) (fun rid => t.rawColumn .fieldRva rid 0)
      (t.fieldRvaOf field)) ∧
    (∀ field, Finds t .fieldLayout 1 (some field) (fun rid => t.rawColumn .fieldLayout rid 0)
      (t.fieldLayoutOf field)) ∧
    (∀ typeDef, Finds t .classLayout 2 (some typeDef) (t.row .classLayout)
      (t.classLayoutOf typeDef)) ∧
    (∀ member, Finds t .implMap 1 (sortKeyFor .implMap member) (t.row .implMap)
      (t.implMapOf member)) ∧
    (∀ typeDef, Finds t .eventMap 0 (some typeDef) .ok (t.eventMapOf typeDef)) ∧
    (∀ typeDef, Finds t .propertyMap 0 (some typeDef) .ok (t.propertyMapOf typeDef)) := by
  obtain ⟨⟨rfl, _, hl⟩, hverified⟩ := parse_spec hrun
  have hlookup {table : TableId} {column : Nat} (hkey : sortKeyColumn table = some column)
      (key : Nat) : t.rowsWithKey table key = .ok (t.rowsHolding table column key) :=
    hl.rowsWithKey_spec hverified hkey
      (fun _ => by have hcount := hl.rowCount_lt hlen table; omega) key
  refine ⟨fun parent => ?_, fun parent => ?_, fun field => ?_, fun field => ?_, fun typeDef => ?_,
    fun member => ?_, fun typeDef => ?_, fun typeDef => ?_⟩
  · refine hl.firstWithKey_finds (hlookup rfl) (by decide) fun rid hrow hkey => ?_
    exact hl.row_of_reads hrow
      ⟨trivial, ⟨parent, CodedIndex.decode_encode 0 hkey⟩, trivial, trivial⟩
  · refine hl.firstWithKey_finds (hlookup rfl) (by decide) fun rid hrow _ => ?_
    exact ⟨_, hl.rawColumn_eq hrow (by decide)⟩
  · refine hl.firstWithKey_finds (hlookup rfl) (by decide) fun rid hrow _ => ?_
    exact ⟨_, hl.rawColumn_eq hrow (by decide)⟩
  · refine hl.firstWithKey_finds (hlookup rfl) (by decide) fun rid hrow _ => ?_
    exact ⟨_, hl.rawColumn_eq hrow (by decide)⟩
  · refine hl.firstWithKey_finds (hlookup rfl) (by decide) fun rid hrow _ => ?_
    exact hl.row_of_reads hrow ⟨trivial, trivial, trivial, trivial⟩
  · refine hl.firstWithKey_finds (hlookup rfl) (by decide) fun rid hrow hkey => ?_
    exact hl.row_of_reads hrow
      ⟨trivial, ⟨member, CodedIndex.decode_encode 0 hkey⟩, trivial, trivial, trivial⟩
  · rw [eventMapOf, firstRowWithKey_self]
    exact hl.firstWithKey_finds (hlookup rfl) (by decide) fun rid _ _ => ⟨rid, rfl⟩
  · rw [propertyMapOf, firstRowWithKey_self]
    exact hl.firstWithKey_finds (hlookup rfl) (by decide) fun rid _ _ => ⟨rid, rfl⟩

/-- Two class layouts and two generic parameters of one type, the second one first. -/
def keyedStream : List UInt8 :=
  [0, 0, 0, 0, 2, 0, 0, 1, 0, 0x80, 0, 0, 0, 0x04, 0, 0, 0, 0, 0, 0, 0, 0, 0, 0,
    2, 0, 0, 0, 2, 0, 0, 0,
    8, 0, 16, 0, 0, 0, 1, 0, 4, 0, 32, 0, 0, 0, 2, 0,
    1, 0, 0, 0, 2, 0, 0, 0, 0, 0, 0, 0, 2, 0, 0, 0]

/-- The class layout of the second type. -/
theorem typed_lookups_find_keyed : ∃ t ds' row,
    parse keyedStream 0 false .strict [] = .ok (t, ds') ∧ t.row .classLayout 2 = .ok row ∧
      t.classLayoutOf 2 = .ok (some row) := by
  have hok : (parse keyedStream 0 false .strict []).toOption.map (fun x =>
      (x.1.rowCount .classLayout, x.1.columnValue .classLayout 1 2,
        x.1.columnValue .classLayout 2 2)) = some (2, 1, 2) := by
    decide +kernel
  obtain ⟨⟨t, ds'⟩, hrun, hvalues⟩ := Option.map_eq_some_iff.mp hok
  obtain ⟨hcount, hfirst, hsecond⟩ : t.rowCount .classLayout = 2 ∧
      t.columnValue .classLayout 1 2 = 1 ∧ t.columnValue .classLayout 2 2 = 2 := by
    simpa using hvalues
  have hrow : t.HasRow .classLayout 2 := ⟨by decide, by rw [hcount]⟩
  have hrun := ok_of_toOption hrun
  rcases (typed_lookups_find (by decide) hrun).2.2.2.2.1 2 with
    ⟨rid, row, hhas, hkey, hleast, hread, hfound⟩ | ⟨hnone, _⟩
  · have hle := hleast 2 hrow (by rw [hsecond])
    have hne : rid ≠ 1 := by
      rintro rfl
      rw [hfirst] at hkey
      cases hkey
    have hone := hhas.1
    obtain rfl : rid = 2 := by omega
    exact ⟨t, ds', row, hrun, hread, hfound⟩
  · exact absurd (by rw [hsecond]) (hnone 2 hrow)

/-! ## All rows of a parent -/

/-- The rows with the key of a parent, in row order. -/
def rowsOwned (t : Tables) (table : TableId) (column : Nat) (parent : Token) : List Nat :=
  match sortKeyFor table parent with
  | some key => t.rowsHolding table column key
  | none => []

theorem nodup_rowsOwned (t : Tables) (table : TableId) (column : Nat) (parent : Token) :
    (t.rowsOwned table column parent).Nodup := by
  unfold rowsOwned
  split
  · exact List.Nodup.filter _ List.nodup_range'
  · exact List.nodup_nil

namespace LaidOut

variable {t : Tables} {h : StreamHeader} {start : Nat} {table : TableId} {column : Nat}

theorem rowsForParent_owned (hl : t.LaidOut h start)
    (hverified : ∀ table, t.isSorted table ↔ t.KeysSorted table) (hlen : t.data.length < 2 ^ 32)
    (hcolumn : sortKeyColumn table = some column) (parent : Token) :
    t.rowsForParent table parent = .ok (t.rowsOwned table column parent) := by
  have hcount := hl.rowCount_lt hlen table
  cases hkey : sortKeyFor table parent with
  | none =>
      simp only [rowsForParent, rowsOwned, hkey]
      rfl
  | some key =>
      simp only [rowsForParent, rowsOwned, hkey]
      exact hl.rowsWithKey_spec hverified hcolumn (fun _ => by omega) key

/-- The rows of a parent are those whose key column holds its key. -/
theorem mem_rowsOwned (hl : t.LaidOut h start) (hcol : column < (columnsOf table).length)
    {parent : Token} {rid : Nat} :
    rid ∈ t.rowsOwned table column parent ↔
      t.HasRow table rid ∧ sortKeyFor table parent = some (t.columnValue table rid column) := by
  unfold rowsOwned
  cases hkey : sortKeyFor table parent with
  | none =>
      constructor
      · intro hmem
        cases hmem
      · rintro ⟨_, hsome⟩
        cases hsome
  | some key =>
      show rid ∈ t.rowsHolding table column key ↔ _
      rw [hl.rowsHolding_eq hcol, List.mem_filter, decide_eq_true_eq, Option.some.injEq]
      constructor
      · rintro ⟨hmem, hvalue⟩
        exact ⟨hasRow_of_mem_range' hmem, hvalue.symm⟩
      · rintro ⟨hrow, hvalue⟩
        exact ⟨mem_range'_of_hasRow hrow, hvalue.symm⟩

end LaidOut

/-! ## Generic parameters -/

/-- The `Number` of a generic parameter. -/
def genericNumber (t : Tables) (rid : Nat) : Nat := t.columnValue .genericParam rid 0

theorem pairwise_pairLe (l : List (Nat × Nat)) :
    (l.mergeSort pairLe).Pairwise fun a b => a.1 < b.1 ∨ a.1 = b.1 ∧ a.2 ≤ b.2 := by
  have hsorted : (l.mergeSort pairLe).Pairwise fun a b => pairLe a b = true := by
    apply List.pairwise_mergeSort
    · intro a b c hab hbc
      have hab := of_decide_eq_true hab
      have hbc := of_decide_eq_true hbc
      apply decide_eq_true
      omega
    · intro a b
      simp only [pairLe, Bool.or_eq_true, decide_eq_true_eq]
      omega
  exact hsorted.imp fun hle => of_decide_eq_true hle

/-- Sorting by a key and forgetting it orders the list by the key. -/
theorem sorted_by_key (key : Nat → Nat) (l : List Nat) :
    (((l.map fun x => (key x, x)).mergeSort pairLe).map Prod.snd).Perm l ∧
      (((l.map fun x => (key x, x)).mergeSort pairLe).map Prod.snd).Pairwise
        fun a b => key a < key b ∨ key a = key b ∧ a ≤ b := by
  have hperm := List.mergeSort_perm (l.map fun x => (key x, x)) pairLe
  constructor
  · have hsnd := hperm.map Prod.snd
    rw [List.map_map] at hsnd
    exact hsnd.trans (List.Perm.of_eq (List.map_id l))
  · rw [List.pairwise_map]
    refine (pairwise_pairLe _).imp_of_mem ?_
    intro a b ha hb hle
    obtain ⟨x, _, rfl⟩ := List.mem_map.mp (hperm.mem_iff.mp ha)
    obtain ⟨y, _, rfl⟩ := List.mem_map.mp (hperm.mem_iff.mp hb)
    exact hle

theorem mapM_numbered {t : Tables} {h : StreamHeader} {start : Nat} (hl : t.LaidOut h start) :
    ∀ {rids : List Nat}, (∀ rid ∈ rids, t.HasRow .genericParam rid) →
      rids.mapM t.numbered = .ok (rids.map fun rid => (t.genericNumber rid, rid))
  | [], _ => rfl
  | rid :: rids, hrows => by
      have hhead : t.numbered rid = .ok (t.genericNumber rid, rid) := by
        rw [numbered, hl.rawColumn_eq (hrows rid List.mem_cons_self) (by decide)]
        rfl
      have htail := mapM_numbered hl fun r hr => hrows r (List.mem_cons_of_mem _ hr)
      rw [List.mapM_cons, hhead, htail]
      rfl

/-- The generic parameters of an owner are its rows, ordered by their numbers, and by their
RIDs where two have the same. When the numbers are those of a declaration, `0` to `n - 1` in
any order, the parameter at each place has the number of the place. -/
theorem genericParams_ordered {data : List UInt8} {base : Nat} {uncompressed : Bool}
    {s : Strictness} {ds ds' : List Diagnostic} {t : Tables} (hlen : data.length < 2 ^ 32)
    (hrun : parse data base uncompressed s ds = .ok (t, ds')) (owner : Token) :
    ∃ rids, t.genericParams owner = .ok rids ∧
      rids.Perm (t.rowsOwned .genericParam 2 owner) ∧
      rids.Pairwise (fun a b => t.genericNumber a < t.genericNumber b ∨
        t.genericNumber a = t.genericNumber b ∧ a < b) ∧
      (∀ n, ((t.rowsOwned .genericParam 2 owner).map t.genericNumber).Perm (List.range n) →
        rids.map t.genericNumber = List.range n) := by
  obtain ⟨⟨rfl, _, hl⟩, hverified⟩ := parse_spec hrun
  have hlookup : t.rowsForParent .genericParam owner = .ok (t.rowsOwned .genericParam 2 owner) :=
    hl.rowsForParent_owned hverified hlen rfl owner
  have howned : ∀ rid ∈ t.rowsOwned .genericParam 2 owner, t.HasRow .genericParam rid :=
    fun rid hrid => ((hl.mem_rowsOwned (by decide)).mp hrid).1
  obtain ⟨hperm, hsorted⟩ := sorted_by_key t.genericNumber (t.rowsOwned .genericParam 2 owner)
  refine ⟨_, ?_, hperm, ?_, ?_⟩
  · rw [genericParams, hlookup]
    show (List.mapM t.numbered (t.rowsOwned .genericParam 2 owner) >>= _) = _
    rw [mapM_numbered hl howned]
    rfl
  · refine (hsorted.and (hperm.nodup_iff.mpr (nodup_rowsOwned t _ _ _))).imp ?_
    rintro a b ⟨hlt | ⟨heq, hle⟩, hne⟩
    · exact .inl hlt
    · exact .inr ⟨heq, Nat.lt_of_le_of_ne hle hne⟩
  · intro n hnumbers
    have hboth := (hperm.map t.genericNumber).trans hnumbers
    refine hboth.eq_of_pairwise' ?_ List.pairwise_le_range
    rw [List.pairwise_map]
    refine hsorted.imp ?_
    rintro a b (hlt | ⟨heq, _⟩)
    · exact Nat.le_of_lt hlt
    · exact Nat.le_of_eq heq

/-- The two parameters of the first type, with the numbers 0 and 1 in this order. -/
theorem genericParams_ordered_keyed : ∃ t ds' rids,
    parse keyedStream 0 false .strict [] = .ok (t, ds') ∧
      t.genericParams (Token.new .typeDef 1) = .ok rids ∧
      rids.map t.genericNumber = List.range 2 := by
  have hok : (parse keyedStream 0 false .strict []).toOption.map (fun x =>
      (x.1.rowsOwned .genericParam 2 (Token.new .typeDef 1)).map x.1.genericNumber) =
        some [1, 0] := by
    decide +kernel
  obtain ⟨⟨t, ds'⟩, hrun, hnumbers⟩ := Option.map_eq_some_iff.mp hok
  obtain ⟨rids, hrids, _, _, hrange⟩ :=
    genericParams_ordered (by decide) (ok_of_toOption hrun) (Token.new .typeDef 1)
  refine ⟨t, ds', rids, ok_of_toOption hrun, hrids, hrange 2 ?_⟩
  rw [hnumbers]
  exact List.Perm.swap 0 1 []

/-! ## Rows and their parents -/

/-- In a table that is keyed by a coded index, a row is among the rows of some parent exactly
when its key decodes to a token that holds all of its RID, and it is among those of no other. -/
theorem attached_once {data : List UInt8} {base : Nat} {uncompressed : Bool} {s : Strictness}
    {ds ds' : List Diagnostic} {t : Tables} (hlen : data.length < 2 ^ 32)
    (hrun : parse data base uncompressed s ds = .ok (t, ds')) {table : TableId} {column : Nat}
    {kind : CodedIndex} (hcolumn : sortKeyColumn table = some column)
    (hcoded : sortKeyCoded table = some kind) {rid : Nat} (hrow : t.HasRow table rid) :
    ((∃ parent rids, t.rowsForParent table parent = .ok rids ∧ rid ∈ rids) ↔
      (∃ token, kind.decode (t.columnValue table rid column) 0 = .ok token) ∧
        t.columnValue table rid column / 2 ^ kind.tagBits < 2 ^ 24) ∧
    ∀ parent parent' rids rids', t.rowsForParent table parent = .ok rids →
      t.rowsForParent table parent' = .ok rids' → rid ∈ rids → rid ∈ rids' →
        parent = parent' := by
  obtain ⟨⟨rfl, _, hl⟩, hverified⟩ := parse_spec hrun
  have hkeys (parent : Token) : sortKeyFor table parent = kind.encode parent := by
    simp only [sortKeyFor, hcoded]
  have howned (parent : Token) (rids : List Nat) (hrids : t.rowsForParent table parent = .ok rids) :
      rid ∈ rids ↔ kind.encode parent = some (t.columnValue table rid column) := by
    rw [hl.rowsForParent_owned hverified hlen hcolumn] at hrids
    cases hrids
    rw [hl.mem_rowsOwned (sortKeyColumn_lt hcolumn), hkeys]
    exact and_iff_right hrow
  constructor
  · constructor
    · rintro ⟨parent, rids, hrids, hmem⟩
      have hencode := (howned parent rids hrids).mp hmem
      have hdecode := CodedIndex.decode_encode 0 hencode
      exact ⟨⟨parent, hdecode⟩, (CodedIndex.encode_decode_iff hdecode).mp hencode⟩
    · rintro ⟨⟨token, hdecode⟩, hnarrow⟩
      have hrids := hl.rowsForParent_owned hverified hlen hcolumn token
      refine ⟨token, _, hrids, (howned token _ hrids).mpr ?_⟩
      exact (CodedIndex.encode_decode_iff hdecode).mpr hnarrow
  · intro parent parent' rids rids' hrids hrids' hmem hmem'
    -- a key is the encoding of one token
    have hdecode := CodedIndex.decode_encode 0 ((howned parent rids hrids).mp hmem)
    have hdecode' := CodedIndex.decode_encode 0 ((howned parent' rids' hrids').mp hmem')
    rw [hdecode] at hdecode'
    cases hdecode'
    rfl

/-- The first generic parameter belongs to a type. -/
theorem attached_once_keyed : ∃ t ds' parent rids,
    parse keyedStream 0 false .strict [] = .ok (t, ds') ∧
      t.rowsForParent .genericParam parent = .ok rids ∧ 1 ∈ rids := by
  have hok : (parse keyedStream 0 false .strict []).toOption.map (fun x =>
      (x.1.rowCount .genericParam, x.1.columnValue .genericParam 1 2)) = some (2, 2) := by
    decide +kernel
  obtain ⟨⟨t, ds'⟩, hrun, hvalues⟩ := Option.map_eq_some_iff.mp hok
  obtain ⟨hcount, hkey⟩ : t.rowCount .genericParam = 2 ∧
      t.columnValue .genericParam 1 2 = 2 := by simpa using hvalues
  have hrow : t.HasRow .genericParam 1 := ⟨by decide, by rw [hcount]; decide⟩
  obtain ⟨parent, rids, hrids, hmem⟩ :=
    (attached_once (by decide) (ok_of_toOption hrun) rfl rfl hrow).1.mpr
      (by rw [hkey]; exact ⟨⟨_, rfl⟩, by decide⟩)
  exact ⟨t, ds', parent, rids, ok_of_toOption hrun, hrids, hmem⟩

end Tables

end Cildec
