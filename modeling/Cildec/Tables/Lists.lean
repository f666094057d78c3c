import Cildec.Lib.Intervals
import Cildec.Tables.Lookup

/-!
# List columns (`src/tables/lookup.rs`, `src/tables/mod.rs`)

A row of a list column owns the run of members from its own value up to the next row's.
The values are clamped into the target table, so that every owner has a range; the
owner of a member is searched for first and scanned for when the search misses.

* `listRange_eq`: the range of an owner is the interval between two boundaries;
* `owner_lookups_find`: the owner lookups are sound and complete, for any column.
-/

namespace Cildec

open Wire

/-- `u32::saturating_add`. -/
def u32SatAdd (a b : Nat) : Nat := min (a + b) (2 ^ 32 - 1)

/-- `Ord::clamp`. -/
def clampTo (lo hi value : Nat) : Nat := if value < lo then lo else if hi < value then hi else value

theorem clampTo_le {lo hi value : Nat} (h : lo ≤ hi) : clampTo lo hi value ≤ hi := by
  unfold clampTo
  split
  · exact h
  · split <;> omega

theorem le_clampTo {lo hi value : Nat} (h : lo ≤ hi) : lo ≤ clampTo lo hi value := by
  unfold clampTo
  split
  · exact Nat.le_refl _
  · split <;> omega

theorem clampTo_mono {lo hi v w : Nat} (h : lo ≤ hi) (hvw : v ≤ w) :
    clampTo lo hi v ≤ clampTo lo hi w := by
  unfold clampTo
  split <;> split <;> (try split) <;> (try split) <;> omega

/-- A half-open range of RIDs. -/
structure RidRange where
  start : Nat
  stop : Nat
  deriving DecidableEq, Repr

namespace RidRange

def contains (r : RidRange) (rid : Nat) : Bool := decide (r.start ≤ rid ∧ rid < r.stop)

/-- The RIDs of the range, in order. -/
def rids (r : RidRange) : List Nat := List.range' r.start (r.stop - r.start)

theorem contains_iff {r : RidRange} {rid : Nat} :
    r.contains rid = true ↔ r.start ≤ rid ∧ rid < r.stop := decide_eq_true_iff

end RidRange

namespace Tables

/-! ## Indirection -/

/-- The number of logically addressable rows. -/
def logicalRowCount (t : Tables) (table : TableId) : Nat :=
  match table.ptrSource with
  | some ptr => if 0 < t.rowCount ptr then t.rowCount ptr else t.rowCount table
  | none => t.rowCount table

/-- Maps a logical RID through the matching `*Ptr` table, if there is one. -/
def resolveIndirection (t : Tables) (table : TableId) (rid : Nat) : Result Nat :=
  match table.ptrSource with
  | none => .ok rid
  | some ptr =>
      if t.rowCount ptr = 0 then .ok rid
      else
        match ptr with
        | .fieldPtr => do
            let row ← t.row .fieldPtr rid
            return (row.1 : Rid .field).value.toNat
        | .methodPtr => do
            let row ← t.row .methodPtr rid
            return (row.1 : Rid .methodDef).value.toNat
        | .paramPtr => do
            let row ← t.row .paramPtr rid
            return (row.1 : Rid .param).value.toNat
        | .eventPtr => do
            let row ← t.row .eventPtr rid
            return (row.1 : Rid .event).value.toNat
        | .propertyPtr => do
            let row ← t.row .propertyPtr rid
            return (row.1 : Rid .property).value.toNat
        | _ => .ok rid

/-- Decodes one row, following the `*Ptr` indirection when present. -/
def rowIndirect (t : Tables) (table : TableId) (rid : Nat) : Result (Row table) := do
  let physical ← t.resolveIndirection table rid
  t.row table physical

/-- The typed accessor of `MethodDef`. -/
def methodDef (t : Tables) (rid : Nat) : Result (Row .methodDef) := t.rowIndirect .methodDef rid

/-! ## Ranges -/

/-- The half-open RID range a list column describes. -/
def listRange (t : Tables) (ownerTable : TableId) (ownerRid column : Nat) (target : TableId) :
    Result RidRange :=
  let count := t.rowCount ownerTable
  if ownerRid = 0 ∨ count < ownerRid then
    .error (Error.detached .outOfRange ownerTable.name)
  else do
    let limit := u32SatAdd (t.logicalRowCount target) 1
    let start ← t.rawColumn ownerTable ownerRid column
    let start := clampTo 1 limit start
    if ownerRid = count then return ⟨start, max limit start⟩
    else do
      let stop ← t.rawColumn ownerTable (ownerRid + 1) column
      return ⟨start, max (clampTo 1 limit stop) start⟩

/-- The logical `Field` RIDs owned by a type. -/
def fieldRange (t : Tables) (typeDef : Nat) : Result RidRange :=
  t.listRange .typeDef typeDef 4 .field

/-- The logical `MethodDef` RIDs owned by a type. -/
def methodRange (t : Tables) (typeDef : Nat) : Result RidRange :=
  t.listRange .typeDef typeDef 5 .methodDef

/-- The logical `Param` RIDs owned by a method. -/
def paramRange (t : Tables) (method : Nat) : Result RidRange :=
  t.listRange .methodDef method 5 .param

/-- The logical `Event` RIDs owned by an `EventMap` row. -/
def eventRange (t : Tables) (eventMap : Nat) : Result RidRange :=
  t.listRange .eventMap eventMap 1 .event

/-- The logical `Property` RIDs owned by a `PropertyMap` row. -/
def propertyRange (t : Tables) (propertyMap : Nat) : Result RidRange :=
  t.listRange .propertyMap propertyMap 1 .property

/-! ## Owners -/

/-- The last row whose run starts at or before the member, between `lo` and `hi`. -/
def ownerSearch (t : Tables) (ownerTable : TableId) (column memberRid : Nat) :
    Nat → Nat → Nat → Nat → Checked Nat
  | 0, _, _, _ => throw .rounds
  | rounds + 1, lo, hi, candidate =>
      if lo ≤ hi then do
        let gap ← u32Sub hi lo
        let mid ← u32Add lo (gap / 2)
        let value ← Checked.ofResult (t.rawColumn ownerTable mid column)
        if value ≤ memberRid then do
          let lo ← u32Add mid 1
          t.ownerSearch ownerTable column memberRid rounds lo hi mid
        else if mid = 1 then return candidate
        else do
          let hi ← u32Sub mid 1
          t.ownerSearch ownerTable column memberRid rounds lo hi candidate
      else return candidate

/-- The first of `rids` whose range holds the member. -/
def ownerScan (t : Tables) (ownerTable : TableId) (column : Nat) (target : TableId)
    (memberRid : Nat) : List Nat → Checked (Option Nat)
  | [] => return none
  | rid :: rids => do
      let range ← Checked.ofResult (t.listRange ownerTable rid column target)
      if range.contains memberRid then return some rid
      else t.ownerScan ownerTable column target memberRid rids

/-- The candidate of the search, when its range holds the member. -/
def ownerCandidate (t : Tables) (ownerTable : TableId) (column : Nat) (target : TableId)
    (memberRid candidate : Nat) : Checked Bool :=
  if candidate = 0 then return false
  else do
    let range ← Checked.ofResult (t.listRange ownerTable candidate column target)
    return range.contains memberRid

/-- The owner of a member addressed by a list column, if any. -/
def ownerOfList (t : Tables) (ownerTable : TableId) (column : Nat) (target : TableId)
    (memberRid : Nat) : Checked (Option Nat) :=
  let count := t.rowCount ownerTable
  if count = 0 ∨ memberRid = 0 then return none
  else do
    let candidate ← t.ownerSearch ownerTable column memberRid (count + 1) 1 count 0
    let hit ← t.ownerCandidate ownerTable column target memberRid candidate
    if hit then return some candidate
    -- the column was not monotonic
    else t.ownerScan ownerTable column target memberRid (List.range' 1 count)

/-- The type that owns a field. -/
def typeOfField (t : Tables) (field : Nat) : Checked (Option Nat) :=
  t.ownerOfList .typeDef 4 .field field

/-- The type that owns a method. -/
def typeOfMethod (t : Tables) (method : Nat) : Checked (Option Nat) :=
  t.ownerOfList .typeDef 5 .methodDef method

/-- The method that owns a parameter row. -/
def methodOfParam (t : Tables) (param : Nat) : Checked (Option Nat) :=
  t.ownerOfList .methodDef 5 .param param

/-! ## The boundaries of a column -/

/-- One past the last member of a list column. -/
def listLimit (t : Tables) (target : TableId) : Nat := u32SatAdd (t.logicalRowCount target) 1

/-- Where the run of an owner starts and, after the last owner, where the members end. -/
def runStart (t : Tables) (owner : TableId) (column : Nat) (target : TableId) (rid : Nat) : Nat :=
  if rid ≤ t.rowCount owner then clampTo 1 (t.listLimit target) (t.columnValue owner rid column)
  else t.listLimit target

/-- The range of an owner that exists. -/
def rangeOf (t : Tables) (owner : TableId) (column : Nat) (target : TableId) (rid : Nat) :
    RidRange :=
  ⟨t.runStart owner column target rid,
    max (t.runStart owner column target (rid + 1)) (t.runStart owner column target rid)⟩

theorem one_le_listLimit (t : Tables) (target : TableId) : 1 ≤ t.listLimit target := by
  simp only [listLimit, u32SatAdd]
  omega

theorem one_le_runStart (t : Tables) (owner : TableId) (column : Nat) (target : TableId)
    (rid : Nat) : 1 ≤ t.runStart owner column target rid := by
  unfold runStart
  split
  · exact le_clampTo (t.one_le_listLimit target)
  · exact t.one_le_listLimit target

theorem runStart_le (t : Tables) (owner : TableId) (column : Nat) (target : TableId)
    (rid : Nat) : t.runStart owner column target rid ≤ t.listLimit target := by
  unfold runStart
  split
  · exact clampTo_le (t.one_le_listLimit target)
  · exact Nat.le_refl _

theorem runStart_after (t : Tables) (owner : TableId) (column : Nat) (target : TableId) :
    t.runStart owner column target (t.rowCount owner + 1) = t.listLimit target :=
  if_neg (by omega)

namespace LaidOut

variable {t : Tables} {h : StreamHeader} {start : Nat} {owner target : TableId} {column : Nat}

/-- The range of an owner runs from its boundary to the next one. -/
theorem listRange_eq (hl : t.LaidOut h start) {rid : Nat} (hrow : t.HasRow owner rid)
    (hcol : column < (columnsOf owner).length) (target : TableId) :
    t.listRange owner rid column target = .ok (t.rangeOf owner column target rid) := by
  obtain ⟨h1, hle⟩ := hrow
  have hin : ¬(rid = 0 ∨ t.rowCount owner < rid) := by omega
  have hstart := hl.rawColumn_eq ⟨h1, hle⟩ hcol
  simp only [listRange, if_neg hin, hstart, bind, Except.bind, pure, Except.pure]
  by_cases hlast : rid = t.rowCount owner
  · rw [if_pos hlast, rangeOf, hlast, runStart_after, runStart, if_pos (Nat.le_refl _)]
    rfl
  · have hnext : t.HasRow owner (rid + 1) := ⟨by omega, by omega⟩
    rw [if_neg hlast, hl.rawColumn_eq hnext hcol]
    simp only [rangeOf, runStart, if_pos hle, if_pos hnext.2]
    rfl

theorem listRange_ok (hl : t.LaidOut h start) {rid : Nat} {range : RidRange}
    (hcol : column < (columnsOf owner).length)
    (hrange : t.listRange owner rid column target = .ok range) :
    t.HasRow owner rid ∧ range = t.rangeOf owner column target rid := by
  have hrow : t.HasRow owner rid := by
    by_contra hno
    have hout : rid = 0 ∨ t.rowCount owner < rid := by
      unfold HasRow at hno
      omega
    simp only [listRange, if_pos hout] at hrange
    cases hrange
  refine ⟨hrow, ?_⟩
  rw [hl.listRange_eq hrow hcol] at hrange
  exact (Except.ok.inj hrange).symm

/-! ## The owner lookup -/

/-- The search stays inside the table and ends within its rounds, whatever the column
holds. -/
theorem ownerSearch_ok (hl : t.LaidOut h start) (hlen : t.data.length < 2 ^ 32)
    (hcol : column < (columnsOf owner).length) (member : Nat) :
    ∀ rounds lo hi candidate, 1 ≤ lo → hi ≤ t.rowCount owner → hi + 1 - lo < rounds →
      (candidate = 0 ∨ t.HasRow owner candidate) →
      ∃ found, t.ownerSearch owner column member rounds lo hi candidate = .ok found ∧
        (found = 0 ∨ t.HasRow owner found)
  | 0, _, _, _, _, _, hrounds, _ => absurd hrounds (Nat.not_lt_zero _)
  | rounds + 1, lo, hi, candidate, hlo, hhi, hrounds, hcandidate => by
      have hcount := hl.rowCount_lt hlen owner
      by_cases hle : lo ≤ hi
      · have hrow : t.HasRow owner (lo + (hi - lo) / 2) := ⟨by omega, by omega⟩
        have hgap := u32Sub_ok hle
        have hmid : u32Add lo ((hi - lo) / 2) = .ok (lo + (hi - lo) / 2) :=
          u32Add_ok (by omega)
        have hvalue := hl.rawColumn_eq hrow hcol
        simp only [ownerSearch, if_pos hle, hgap, hmid, hvalue, Checked.ofResult, bind,
          Except.bind]
        -- an owner that starts at the member or before it may hold it, so the search goes right
        by_cases hbefore : t.columnValue owner (lo + (hi - lo) / 2) column ≤ member
        · have hnext : u32Add (lo + (hi - lo) / 2) 1 = .ok (lo + (hi - lo) / 2 + 1) :=
            u32Add_ok (by omega)
          simp only [if_pos hbefore, hnext]
          exact hl.ownerSearch_ok hlen hcol member rounds _ hi _ (by omega) hhi (by omega)
            (.inr hrow)
        · simp only [if_neg hbefore]
          -- to the left of the first owner there is none, and `mid - 1` is not formed
          by_cases hfirst : lo + (hi - lo) / 2 = 1
          · rw [if_pos hfirst]
            exact ⟨candidate, rfl, hcandidate⟩
          · have hprev : u32Sub (lo + (hi - lo) / 2) 1 = .ok (lo + (hi - lo) / 2 - 1) :=
              u32Sub_ok (by omega)
            simp only [if_neg hfirst, hprev]
            exact hl.ownerSearch_ok hlen hcol member rounds lo _ candidate hlo (by omega)
              (by omega) hcandidate
      · simp only [ownerSearch, if_neg hle]
        exact ⟨candidate, rfl, hcandidate⟩

/-- The candidate is taken exactly when it is an owner whose range holds the member. -/
theorem ownerCandidate_cases (hl : t.LaidOut h start) (hcol : column < (columnsOf owner).length)
    (target : TableId) (member : Nat) {candidate : Nat}
    (hcandidate : candidate = 0 ∨ t.HasRow owner candidate) :
    t.ownerCandidate owner column target member candidate = .ok false ∨
      (t.ownerCandidate owner column target member candidate = .ok true ∧
        ∃ r, t.listRange owner candidate column target = .ok r ∧ r.contains member = true) := by
  rcases hcandidate with rfl | hrow
  · exact .inl rfl
  · have hne : candidate ≠ 0 := by
      have := hrow.1
      omega
    have hrange := hl.listRange_eq hrow hcol target
    have heq : t.ownerCandidate owner column target member candidate =
        .ok ((t.rangeOf owner column target candidate).contains member) := by
      simp only [ownerCandidate, if_neg hne, hrange, Checked.ofResult, bind, Except.bind]
      rfl
    rw [heq]
    cases hcontains : (t.rangeOf owner column target candidate).contains member with
    | false => exact .inl rfl
    | true => exact .inr ⟨rfl, _, hrange, hcontains⟩

/-- The scan finds the first owner whose range holds the member. -/
theorem ownerScan_eq (hl : t.LaidOut h start) (hcol : column < (columnsOf owner).length)
    (target : TableId) (member : Nat) {rids : List Nat} (hrids : ∀ rid ∈ rids, t.HasRow owner rid) :
    t.ownerScan owner column target member rids =
      .ok (rids.find? fun rid => (t.rangeOf owner column target rid).contains member) := by
  induction rids with
  | nil => rfl
  | cons rid rids ih =>
      have hrange := hl.listRange_eq (hrids rid List.mem_cons_self) hcol target
      have htail := ih fun x hx => hrids x (List.mem_cons_of_mem _ hx)
      simp only [ownerScan, hrange, Checked.ofResult, bind, Except.bind, htail]
      cases hcontains : (t.rangeOf owner column target rid).contains member with
      | true => simp [hcontains, pure, Except.pure]
      | false => simp [hcontains]

end LaidOut

/-- An owner found by the scan has the member. -/
theorem ownerScan_some {t : Tables} {owner target : TableId} {column member found : Nat} :
    ∀ {rids : List Nat}, t.ownerScan owner column target member rids = .ok (some found) →
      ∃ r, t.listRange owner found column target = .ok r ∧ r.contains member = true
  | [], hrun => by cases hrun
  | rid :: rids, hrun => by
      cases hrange : t.listRange owner rid column target with
      | error e =>
          simp only [ownerScan, hrange, Checked.ofResult, bind, Except.bind] at hrun
          cases hrun
      | ok r =>
          simp only [ownerScan, hrange, Checked.ofResult, bind, Except.bind] at hrun
          split at hrun
          · rename_i hcontains
            cases hrun
            exact ⟨r, hrange, hcontains⟩
          · exact ownerScan_some hrun

/-- An owner that a lookup names has the member. -/
theorem ownerOfList_some {t : Tables} {owner target : TableId} {column member found : Nat}
    (hrun : t.ownerOfList owner column target member = .ok (some found)) :
    ∃ r, t.listRange owner found column target = .ok r ∧ r.contains member = true := by
  unfold ownerOfList at hrun
  simp only at hrun
  split at hrun
  · cases hrun
  · cases hsearch : t.ownerSearch owner column member (t.rowCount owner + 1) 1
        (t.rowCount owner) 0 with
    | error e =>
        simp only [hsearch, bind, Except.bind] at hrun
        cases hrun
    | ok candidate =>
        cases hhit : t.ownerCandidate owner column target member candidate with
        | error e =>
            simp only [hsearch, hhit, bind, Except.bind] at hrun
            cases hrun
        | ok hit =>
            simp only [hsearch, hhit, bind, Except.bind] at hrun
            cases hit with
            | false => exact ownerScan_some hrun
            | true =>
                cases hrun
                unfold ownerCandidate at hhit
                split at hhit
                · cases hhit
                · cases hrange : t.listRange owner found column target with
                  | error e =>
                      simp only [hrange, Checked.ofResult, bind, Except.bind] at hhit
                      cases hhit
                  | ok r =>
                      simp only [hrange, Checked.ofResult, bind, Except.bind] at hhit
                      exact ⟨r, rfl, Except.ok.inj hhit⟩

/-- What an owner lookup must return: an owner whose range holds the member, or nothing
when no owner's range does. -/
def FindsOwner (range : Nat → Result RidRange) (member : Nat) (found : Checked (Option Nat)) :
    Prop :=
  (∃ owner r, found = .ok (some owner) ∧ range owner = .ok r ∧ r.contains member = true) ∨
    (found = .ok none ∧ ∀ owner r, range owner = .ok r → r.contains member = false)

/-- The owner lookup of any list column is sound and complete. -/
theorem LaidOut.ownerOfList_finds {t : Tables} {h : StreamHeader} {start : Nat}
    (hl : t.LaidOut h start) (hlen : t.data.length < 2 ^ 32) {owner : TableId} {column : Nat}
    (hcol : column < (columnsOf owner).length) (target : TableId) (member : Nat) :
    FindsOwner (fun rid => t.listRange owner rid column target) member
      (t.ownerOfList owner column target member) := by
  unfold ownerOfList
  by_cases hnone : t.rowCount owner = 0 ∨ member = 0
  · -- without owners there is no range, and no range holds RID 0
    refine .inr ⟨if_pos hnone, ?_⟩
    intro rid r hr
    obtain ⟨⟨h1, hle⟩, rfl⟩ := hl.listRange_ok hcol hr
    rw [Bool.eq_false_iff]
    intro hcontains
    have hstart : 1 ≤ (t.rangeOf owner column target rid).start :=
      t.one_le_runStart owner column target rid
    have hmem := RidRange.contains_iff.mp hcontains
    omega
  · simp only [if_neg hnone]
    obtain ⟨candidate, hsearch, hcandidate⟩ := hl.ownerSearch_ok hlen hcol member
      (t.rowCount owner + 1) 1 (t.rowCount owner) 0 (Nat.le_refl _) (Nat.le_refl _) (by omega)
      (.inl rfl)
    have hscan := hl.ownerScan_eq hcol target member
      fun _ (hrid : _ ∈ List.range' 1 (t.rowCount owner)) => hasRow_of_mem_range' hrid
    rcases hl.ownerCandidate_cases hcol target member hcandidate with hmiss | ⟨hhit, hrange⟩
    · simp only [hsearch, hmiss, hscan, bind, Except.bind]
      cases hfind : (List.range' 1 (t.rowCount owner)).find? fun rid =>
          (t.rangeOf owner column target rid).contains member with
      | some rid =>
          have hrow := hasRow_of_mem_range' (List.mem_of_find?_eq_some hfind)
          have hcontains := List.find?_some hfind
          exact .inl ⟨rid, _, rfl, hl.listRange_eq hrow hcol target, hcontains⟩
      | none =>
          refine .inr ⟨rfl, ?_⟩
          intro rid r hr
          obtain ⟨⟨h1, hle⟩, rfl⟩ := hl.listRange_ok hcol hr
          have hmem : rid ∈ List.range' 1 (t.rowCount owner) := by
            rw [List.mem_range'_1]
            omega
          have hno := List.find?_eq_none.mp hfind rid hmem
          simpa using hno
    · obtain ⟨r, hr, hcontains⟩ := hrange
      simp only [hsearch, hhit, bind, Except.bind]
      exact .inl ⟨candidate, r, rfl, hr, hcontains⟩

/-- In an accepted stream every owner lookup succeeds without leaving `u32`, names only an
owner that has the member, and misses no owner, whether or not the column ascends. -/
theorem owner_lookups_find {data : List UInt8} {base : Nat} {uncompressed : Bool}
    {s : Strictness} {ds ds' : List Diagnostic} {t : Tables} (hlen : data.length < 2 ^ 32)
    (hrun : parse data base uncompressed s ds = .ok (t, ds')) :
    (∀ field, FindsOwner t.fieldRange field (t.typeOfField field)) ∧
      (∀ method, FindsOwner t.methodRange method (t.typeOfMethod method)) ∧
      (∀ param, FindsOwner t.paramRange param (t.methodOfParam param)) := by
  obtain ⟨⟨rfl, _, hl⟩, _⟩ := parse_spec hrun
  refine ⟨?_, ?_, ?_⟩
  · intro field
    exact hl.ownerOfList_finds hlen (by decide) .field field
  · intro method
    exact hl.ownerOfList_finds hlen (by decide) .methodDef method
  · intro param
    exact hl.ownerOfList_finds hlen (by decide) .param param

/-- Two types and three fields; the first type's `FieldList` is 3, the second's 2. -/
def descendingStream : List UInt8 :=
  [0, 0, 0, 0, 2, 0, 0, 1, 0x14, 0, 0, 0, 0, 0, 0, 0, 0, 0, 0, 0, 0, 0, 0, 0,
    2, 0, 0, 0, 3, 0, 0, 0,
    0, 0, 0, 0, 0, 0, 0, 0, 0, 0, 3, 0, 1, 0, 0, 0, 0, 0, 0, 0, 0, 0, 0, 0, 2, 0, 1, 0,
    0, 0, 0, 0, 0, 0, 0, 0, 0, 0, 0, 0, 0, 0, 0, 0, 0, 0]

theorem descendingStream_finds : ∃ t ds',
    parse descendingStream 0 false .strict [] = .ok (t, ds') ∧
      ∀ field, FindsOwner t.fieldRange field (t.typeOfField field) := by
  have hok : (parse descendingStream 0 false .strict []).isOk := by decide +kernel
  obtain ⟨⟨t, ds'⟩, hrun⟩ := exists_ok_of_isOk hok
  exact ⟨t, ds', hrun, (owner_lookups_find (by decide) hrun).1⟩

/-! ## Partitions -/

/-- A list column: its owner table, its place in the row and the table it indexes. -/
inductive ListColumn where
  | fieldList | methodList | paramList | eventList | propertyList
  deriving DecidableEq, Repr

namespace ListColumn

def owner : ListColumn → TableId
  | fieldList => .typeDef
  | methodList => .typeDef
  | paramList => .methodDef
  | eventList => .eventMap
  | propertyList => .propertyMap

def column : ListColumn → Nat
  | fieldList => 4
  | methodList => 5
  | paramList => 5
  | eventList => 1
  | propertyList => 1

def target : ListColumn → TableId
  | fieldList => .field
  | methodList => .methodDef
  | paramList => .param
  | eventList => .event
  | propertyList => .property

/-- The range accessor of the column. -/
def range (t : Tables) : ListColumn → Nat → Result RidRange
  | fieldList => t.fieldRange
  | methodList => t.methodRange
  | paramList => t.paramRange
  | eventList => t.eventRange
  | propertyList => t.propertyRange

theorem range_eq (t : Tables) (l : ListColumn) (rid : Nat) :
    l.range t rid = t.listRange l.owner rid l.column l.target := by
  cases l <;> rfl

theorem column_lt (l : ListColumn) : l.column < (columnsOf l.owner).length := by
  cases l <;> decide

end ListColumn

end Tables

end Cildec
