import Cildec.Tables.Indirection
import Cildec.Tables.RoundTrip

/-!
# List columns partition their members

The boundaries of a non-decreasing list column are in order, so the ranges of its owners
are consecutive intervals (`Wire.Boundaries`). Walked through the `*Ptr` table they visit
every physical row once. The upper limit is a saturating sum: at `u32::MAX` logical rows
the last member has no owner (`manyEvents_last_unowned`).
-/

namespace Cildec

open Wire

/-- The ranges of the owners `1..=n` are consecutive and pairwise disjoint, and together
they are `first..limit`. -/
structure Partition (range : Nat → Result RidRange) (n first limit : Nat) : Prop where
  total : ∀ o, 1 ≤ o → o ≤ n → ∃ r, range o = .ok r ∧ r.start ≤ r.stop
  first_start : ∀ r, range 1 = .ok r → r.start = first
  last_stop : ∀ r, range n = .ok r → r.stop = limit
  consecutive : ∀ o r s, 1 ≤ o → o < n → range o = .ok r → range (o + 1) = .ok s →
    r.stop = s.start
  disjoint : ∀ o p r s m, range o = .ok r → range p = .ok s → r.contains m = true →
    s.contains m = true → o = p
  covers : ∀ m, (∃ o r, range o = .ok r ∧ r.contains m = true) ↔ first ≤ m ∧ m < limit

namespace Tables

/-- A logical RID names a physical row, through the `*Ptr` table if there is one. -/
def Visits (t : Tables) (target : TableId) (rid physical : Nat) : Prop :=
  t.resolveIndirection target rid = .ok physical ∧
    t.rowIndirect target rid = t.row target physical

/-- The members of every owner of a list column, owner after owner. -/
def walkOwners (t : Tables) (l : ListColumn) : List Nat :=
  (List.range' 1 (t.rowCount l.owner)).flatMap fun o =>
    (l.range t o).toOption.elim [] RidRange.rids

/-- The walk visits every physical row of the target exactly once. -/
def VisitsOnce (t : Tables) (l : ListColumn) : Prop :=
  ∃ visited, List.Forall₂ (t.Visits l.target) (t.walkOwners l) visited ∧
    visited.Perm (List.range' 1 (t.rowCount l.target))

/-- The `*Ptr` table of the target is empty or a permutation of its RIDs. -/
def PtrPermutes (t : Tables) (target : TableId) : Prop :=
  ∀ ptr, target.ptrSource = some ptr →
    t.rowCount ptr = 0 ∨ (t.keys ptr 0).Perm (List.range' 1 (t.rowCount target))

namespace LaidOut

variable {t : Tables} {h : StreamHeader} {start : Nat} {owner target : TableId} {column : Nat}

/-- The boundaries of a non-decreasing column are in order. -/
theorem boundaries (hsorted : (t.keys owner column).Pairwise (· ≤ ·)) (target : TableId) :
    Boundaries (t.runStart owner column target) 1 (t.rowCount owner) := by
  intro i hi hlt
  have hle : i ≤ t.rowCount owner := by omega
  rw [runStart, if_pos hle]
  by_cases hlast : i + 1 ≤ t.rowCount owner
  · have hpair := List.pairwise_iff_getElem.mp hsorted (i - 1) i
      (by simp [keys]; omega) (by simp [keys]; omega) (by omega)
    simp only [keys, List.getElem_map, List.getElem_range', Nat.one_mul] at hpair
    rw [show 1 + (i - 1) = i by omega, Nat.add_comm 1 i] at hpair
    rw [runStart, if_pos hlast]
    exact clampTo_mono (t.one_le_listLimit target) hpair
  · rw [runStart, if_neg hlast]
    exact clampTo_le (t.one_le_listLimit target)

/-- The range of an owner of a non-decreasing column ends where the next one starts. -/
theorem rangeOf_eq (hb : Boundaries (t.runStart owner column target) 1 (t.rowCount owner))
    {o : Nat} (hrow : t.HasRow owner o) :
    t.rangeOf owner column target o =
      ⟨t.runStart owner column target o, t.runStart owner column target (o + 1)⟩ := by
  obtain ⟨h1, hle⟩ := hrow
  rw [rangeOf, Nat.max_eq_left (hb o h1 (by omega))]

/-- The ranges of a non-decreasing column are a partition. -/
theorem partition (hl : t.LaidOut h start) (hcol : column < (columnsOf owner).length)
    (hrows : 1 ≤ t.rowCount owner) (hsorted : (t.keys owner column).Pairwise (· ≤ ·))
    (target : TableId) :
    Partition (fun o => t.listRange owner o column target) (t.rowCount owner)
      (clampTo 1 (t.listLimit target) (t.columnValue owner 1 column)) (t.listLimit target) := by
  have hb := boundaries hsorted target
  have hrange : ∀ {o r}, t.listRange owner o column target = .ok r → t.HasRow owner o ∧
      r = ⟨t.runStart owner column target o, t.runStart owner column target (o + 1)⟩ := by
    intro o r hr
    obtain ⟨hrow, rfl⟩ := hl.listRange_ok hcol hr
    exact ⟨hrow, rangeOf_eq hb hrow⟩
  have hfirst : t.runStart owner column target 1 =
      clampTo 1 (t.listLimit target) (t.columnValue owner 1 column) := if_pos hrows
  have hlast : t.runStart owner column target (1 + t.rowCount owner) = t.listLimit target := by
    rw [Nat.add_comm]
    exact t.runStart_after owner column target
  constructor
  case total =>
    intro o h1 hle
    refine ⟨_, hl.listRange_eq ⟨h1, hle⟩ hcol target, ?_⟩
    rw [rangeOf_eq hb ⟨h1, hle⟩]
    exact hb o h1 (by omega)
  case first_start =>
    intro r hr
    obtain ⟨_, rfl⟩ := hrange hr
    exact hfirst
  case last_stop =>
    intro r hr
    obtain ⟨_, rfl⟩ := hrange hr
    exact t.runStart_after owner column target
  case consecutive =>
    intro o r s _ _ hr hs
    obtain ⟨_, rfl⟩ := hrange hr
    obtain ⟨_, rfl⟩ := hrange hs
    rfl
  case disjoint =>
    intro o p r s m hr hs hrm hsm
    obtain ⟨⟨ho, ho'⟩, rfl⟩ := hrange hr
    obtain ⟨⟨hp, hp'⟩, rfl⟩ := hrange hs
    obtain ⟨hom, hom'⟩ := RidRange.contains_iff.mp hrm
    obtain ⟨hpm, hpm'⟩ := RidRange.contains_iff.mp hsm
    exact hb.interval_unique ho (by omega) hp (by omega) hom hom' hpm hpm'
  case covers =>
    intro m
    rw [← hfirst, ← hlast]
    constructor
    · rintro ⟨o, r, hr, hrm⟩
      obtain ⟨⟨ho, ho'⟩, rfl⟩ := hrange hr
      obtain ⟨hom, hom'⟩ := RidRange.contains_iff.mp hrm
      have hlow := hb.mono (Nat.le_refl 1) ho (by omega)
      have hhigh := hb.mono (i := o + 1) (j := 1 + t.rowCount owner) (by omega) (by omega)
        (by omega)
      exact ⟨Nat.le_trans hlow hom, Nat.lt_of_lt_of_le hom' hhigh⟩
    · rintro ⟨hlow, hhigh⟩
      obtain ⟨o, ho, ho', hom, hom'⟩ := hb.exists_interval hlow hhigh
      have hrow : t.HasRow owner o := ⟨ho, by omega⟩
      refine ⟨o, _, hl.listRange_eq hrow hcol target, ?_⟩
      rw [rangeOf_eq hb hrow]
      exact RidRange.contains_iff.mpr ⟨hom, hom'⟩

/-- Walking the owners of a non-decreasing column lists the members in order. -/
theorem walkOwners_eq (hl : t.LaidOut h start) (l : ListColumn)
    (hsorted : (t.keys l.owner l.column).Pairwise (· ≤ ·)) :
    t.walkOwners l = List.range' (t.runStart l.owner l.column l.target 1)
      (t.listLimit l.target - t.runStart l.owner l.column l.target 1) := by
  have hb := boundaries hsorted l.target
  have hflat := hb.flatMap_intervals
  rw [Nat.add_comm 1, runStart_after] at hflat
  rw [← hflat, walkOwners]
  refine List.flatMap_congr fun o ho => ?_
  have hrow := hasRow_of_mem_range' ho
  rw [l.range_eq, hl.listRange_eq hrow l.column_lt, rangeOf_eq hb hrow]
  rfl

/-- A walk over all logical RIDs visits every physical row once. -/
theorem visits_all (hl : t.LaidOut h start) (hptr : t.PtrPermutes target) :
    ∃ visited, List.Forall₂ (t.Visits target)
        (List.range' 1 (t.logicalRowCount target)) visited ∧
      visited.Perm (List.range' 1 (t.rowCount target)) := by
  by_cases hnone : ∀ ptr, target.ptrSource = some ptr → t.rowCount ptr = 0
  · refine ⟨List.range' 1 (t.rowCount target), ?_, List.Perm.refl _⟩
    rw [logicalRowCount_self hnone, List.forall₂_same]
    intro rid _
    have hself := resolveIndirection_self hnone rid
    refine ⟨hself, ?_⟩
    simp only [rowIndirect, hself, bind, Except.bind]
  · simp only [not_forall] at hnone
    obtain ⟨ptr, hsource, hcount⟩ := hnone
    have hperm := (hptr ptr hsource).resolve_left hcount
    refine ⟨t.keys ptr 0, ?_, hperm⟩
    rw [logicalRowCount_ptr hsource hcount, keys, List.forall₂_map_right_iff, List.forall₂_same]
    intro rid hrid
    have hresolve := hl.resolveIndirection_ptr hsource (hasRow_of_mem_range' hrid)
    refine ⟨hresolve, ?_⟩
    simp only [rowIndirect, hresolve, bind, Except.bind]

/-- From first value 1 on, the walk visits every physical row once. -/
theorem visitsOnce (hl : t.LaidOut h start) (l : ListColumn) (hrows : 1 ≤ t.rowCount l.owner)
    (hsorted : (t.keys l.owner l.column).Pairwise (· ≤ ·))
    (hfirst : t.columnValue l.owner 1 l.column = 1) (hptr : t.PtrPermutes l.target)
    (hcount : t.logicalRowCount l.target + 1 < 2 ^ 32) : t.VisitsOnce l := by
  have hlimit : t.listLimit l.target = t.logicalRowCount l.target + 1 := by
    simp only [listLimit, u32SatAdd]
    omega
  have hstart : t.runStart l.owner l.column l.target 1 = 1 := by
    rw [runStart, if_pos hrows, hfirst, hlimit]
    simp [clampTo]
  have hwalk := hl.walkOwners_eq l hsorted
  rw [hstart, hlimit, Nat.add_sub_cancel] at hwalk
  unfold VisitsOnce
  rw [hwalk]
  exact hl.visits_all hptr

end LaidOut

/-- The ranges of a non-decreasing list column partition the members from the first value
on; from 1 on, walking the owners through a permuting `*Ptr` table visits every physical
row exactly once. -/
theorem list_column_partitions {data : List UInt8} {base : Nat} {uncompressed : Bool}
    {s : Strictness} {ds ds' : List Diagnostic} {t : Tables}
    (hrun : parse data base uncompressed s ds = .ok (t, ds')) (l : ListColumn)
    (hrows : 1 ≤ t.rowCount l.owner)
    (hsorted : (t.keys l.owner l.column).Pairwise (· ≤ ·)) :
    Partition (l.range t) (t.rowCount l.owner)
        (clampTo 1 (t.listLimit l.target) (t.columnValue l.owner 1 l.column))
        (t.listLimit l.target) ∧
      (t.columnValue l.owner 1 l.column = 1 → t.PtrPermutes l.target →
        t.logicalRowCount l.target + 1 < 2 ^ 32 → t.VisitsOnce l) := by
  obtain ⟨⟨_, _, hl⟩, _⟩ := parse_spec hrun
  refine ⟨?_, ?_⟩
  · have hpart := hl.partition l.column_lt hrows hsorted l.target
    have hrange : l.range t = fun o => t.listRange l.owner o l.column l.target :=
      funext (l.range_eq t)
    rwa [hrange]
  · intro hfirst hptr hcount
    exact hl.visitsOnce l hrows hsorted hfirst hptr hcount

/-- `reversedMethods` has the `ParamList`s 1 and 2, and two parameters. -/
theorem reversedMethods_partitions : ∃ t ds',
    parse reversedMethods 0 true .strict [] = .ok (t, ds') ∧
      Partition t.paramRange 2 1 3 ∧ t.VisitsOnce .paramList := by
  have hok : (parse reversedMethods 0 true .strict []).isOk := by decide +kernel
  obtain ⟨⟨t, ds'⟩, hrun⟩ := exists_ok_of_isOk hok
  have hvalues : ((parse reversedMethods 0 true .strict []).toOption.map fun r =>
      (r.1.keys .methodDef 5, r.1.rowCount .methodDef, r.1.columnValue .methodDef 1 5,
        r.1.listLimit .param, r.1.rowCount .paramPtr, r.1.logicalRowCount .param)) =
      some ([1, 2], 2, 1, 3, 0, 2) := by decide +kernel
  rw [hrun] at hvalues
  have hall := Option.some.inj hvalues
  simp only [Prod.mk.injEq] at hall
  obtain ⟨hkeys, hrows, hfirst, hlimit, hptr, hcount⟩ := hall
  have hsorted : (t.keys .methodDef 5).Pairwise (· ≤ ·) := by
    rw [hkeys]
    decide
  have hone : 1 ≤ t.rowCount .methodDef := by
    rw [hrows]
    decide
  obtain ⟨hpart, hvisits⟩ := list_column_partitions hrun .paramList hone hsorted
  have hlogical : t.logicalRowCount .param + 1 < 2 ^ 32 := by
    rw [hcount]
    decide
  refine ⟨t, ds', hrun, ?_, hvisits hfirst ?_ hlogical⟩
  · simp only [ListColumn.range, ListColumn.owner, ListColumn.target, ListColumn.column, hrows,
      hlimit, hfirst] at hpart
    exact hpart
  · intro ptr hsource
    cases hsource
    exact .inl hptr

end Tables

/-! ## The saturated limit -/

/-- An `Event` row of zeros. -/
def emptyEvent : Row .event := ((0 : UInt16), ⟨0⟩, Token.new .typeDef 0, ())

/-- One `EventMap` row and `n` empty `Event` rows. -/
def eventRows (n : Nat) : (table : TableId) → List (Row table)
  | .eventMap => [(⟨0⟩, ⟨1⟩, ())]
  | .event => List.replicate n emptyEvent
  | _ => []

theorem eventMask_known (slot : Nat) (h : (0x140000 : UInt64).toNat.testBit slot) :
    (TableId.fromU8 slot).isSome :=
  valid_known_of_low (by decide) slot h

theorem eventRows_valid (n : Nat) (table : TableId) (h : eventRows n table ≠ []) :
    (0x140000 : UInt64).toNat.testBit table.toU8 := by
  cases table <;> first | exact absurd rfl h | decide

theorem eventRows_lt {n : Nat} (hn : n < 2 ^ 32) (table : TableId) :
    (eventRows n table).length < 2 ^ 32 := by
  cases table with
  | event =>
      show (List.replicate n emptyEvent).length < 2 ^ 32
      rwa [List.length_replicate]
  | eventMap =>
      show 1 < 2 ^ 32
      decide
  | _ =>
      show 0 < 2 ^ 32
      decide

theorem eventRows_ptr (n : Nat) (table ptr : TableId) (h : table.ptrSource = some ptr) :
    eventRows n ptr = [] ∨ (eventRows n ptr).length = (eventRows n table).length := by
  cases table <;> cases h <;> exact .inl rfl

theorem eventRows_fit (n : Nat) (table : TableId) (row : Row table) (h : row ∈ eventRows n table) :
    CellsFit (specColumnWidth 0 fun t => (eventRows n t).length) (columnsOf table) row := by
  cases table with
  | eventMap =>
      rcases h with _ | ⟨_, hnil⟩
      · exact ⟨trivial, lt_specColumnWidth (by decide) (.rid .typeDef), trivial,
          lt_specColumnWidth (by decide) (.rid .event), trivial⟩
      · cases hnil
  | event =>
      obtain rfl := List.eq_of_mem_replicate h
      exact ⟨trivial, lt_specColumnWidth (by decide) .u16, trivial,
        lt_specColumnWidth (by decide) .string, ⟨.typeDef, by decide, by decide⟩,
        lt_specColumnWidth (by decide) (.coded .typeDefOrRef), trivial⟩
  | _ => cases h

/-- A stream with one `EventMap` row and `n` events. -/
def manyEvents (n : Nat) (hn : n < 2 ^ 32) : TableStream where
  reserved := 0
  majorVersion := 2
  minorVersion := 0
  heapSizes := 0
  reserved2 := 1
  valid := 0x140000
  sorted := 0
  extra := 0
  rows := eventRows n
  heapSizes_bits := rfl
  valid_known := eventMask_known
  valid_rows := eventRows_valid n
  rows_lt := eventRows_lt hn
  ptr_rows := eventRows_ptr n
  fits := eventRows_fit n

/-- With `u32::MAX` events the limit saturates: the last owner's run ends before the last
event. -/
theorem manyEvents_last_unowned : ¬ ∀ (data : List UInt8) (base : Nat) (uncompressed : Bool)
    (s : Strictness) (ds ds' : List Diagnostic) (t : Tables),
    Tables.parse data base uncompressed s ds = .ok (t, ds') →
    ∀ l : Tables.ListColumn, 1 ≤ t.rowCount l.owner →
      (t.keys l.owner l.column).Pairwise (· ≤ ·) →
      Partition (l.range t) (t.rowCount l.owner)
        (clampTo 1 (t.logicalRowCount l.target + 1) (t.columnValue l.owner 1 l.column))
        (t.logicalRowCount l.target + 1) := by
  intro hclaim
  obtain ⟨n, hn, hlast⟩ : ∃ n, n < 2 ^ 32 ∧ 2 ^ 32 ≤ n + 1 := ⟨2 ^ 32 - 1, by omega, by omega⟩
  obtain ⟨t, ds', hrun⟩ := (manyEvents n hn).exists_parse [] 0 false []
  obtain ⟨⟨_, _, hl⟩, _⟩ := Tables.parse_spec hrun
  have hcount : ∀ table, t.rowCount table = (eventRows n table).length := by
    intro table
    rw [Tables.rowCount, (manyEvents n hn).layouts_eq hrun table]
    rfl
  have howner : t.rowCount .eventMap = 1 := hcount .eventMap
  have hevents : t.rowCount .event = n := by
    rw [hcount .event]
    exact List.length_replicate
  have hpointers : ∀ ptr, TableId.event.ptrSource = some ptr → t.rowCount ptr = 0 := by
    intro ptr hsource
    cases hsource
    exact hcount .eventPtr
  have hlogical : t.logicalRowCount .event = n := by
    rw [Tables.logicalRowCount_self hpointers, hevents]
  have hpart := hclaim _ 0 false .permissive [] ds' t hrun .eventList
    (by show 1 ≤ t.rowCount .eventMap; omega)
    (Tables.LaidOut.keys_of_le_one 1 (by show t.rowCount .eventMap ≤ 1; omega))
  obtain ⟨r, hr, _⟩ := hpart.total 1 (Nat.le_refl 1) (by show 1 ≤ t.rowCount .eventMap; omega)
  have hstop : r.stop = n + 1 := by
    have hstop := hpart.last_stop r
    simp only [Tables.ListColumn.owner, howner] at hstop
    rw [hstop hr]
    show t.logicalRowCount .event + 1 = n + 1
    rw [hlogical]
  have hcol : 1 < (columnsOf .eventMap).length := by decide
  obtain ⟨_, rfl⟩ := hl.listRange_ok hcol hr
  -- the range of the last owner ends at the saturated limit
  have hle : (t.rangeOf .eventMap 1 .event 1).stop ≤ t.listLimit .event :=
    Nat.max_le.mpr ⟨t.runStart_le .eventMap 1 .event 2, t.runStart_le .eventMap 1 .event 1⟩
  have hlimit : t.listLimit .event ≤ 2 ^ 32 - 1 := Nat.min_le_right _ _
  omega

end Cildec
