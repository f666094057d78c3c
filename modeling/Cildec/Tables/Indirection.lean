import Cildec.Tables.Lists
import Cildec.Tables.Typed

/-!
# `*Ptr` indirection

A logical RID goes through the `*Ptr` table of its table, when there is one, to a
physical row (`resolveIndirection_ptr`). The typed accessor of `MethodDef` follows the
indirection and `param_range` reads the owner row directly: the two mean the same method
exactly where the indirection keeps the parameter list (`paramLists_agree_iff`).
-/

namespace Cildec

open Wire

/-- The `param_list` column of a `MethodDef` row. -/
def paramList (row : Row .methodDef) : Nat := (row.2.2.2.2.2.1 : Rid .param).value.toNat

/-- A RID cell holds its raw value. -/
theorem Rid.value_of_raw {target : TableId} {cell : Rid target} {v : Nat}
    (h : CellOfRaw (.rid target) cell v) (hlt : v < 2 ^ 32) : cell.value.toNat = v := by
  have hcell : cell = Rid.mk (UInt32.ofNat v) := h
  rw [hcell]
  exact UInt32.toNat_ofNat_of_lt' hlt

namespace Tables

/-! ## Resolving a logical RID -/

namespace LaidOut

variable {t : Tables} {h : StreamHeader} {start : Nat}

/-- A row of a `*Ptr` table is the physical RID it holds. -/
theorem resolveIndirection_ptr (hl : t.LaidOut h start) {target ptr : TableId}
    (hptr : target.ptrSource = some ptr) {rid : Nat} (hrow : t.HasRow ptr rid) :
    t.resolveIndirection target rid = .ok (t.columnValue ptr rid 0) := by
  have hcount : t.rowCount ptr ≠ 0 := by
    have h1 := hrow.1
    have h2 := hrow.2
    omega
  have hcol : 0 < (columnsOf ptr).length := by cases target <;> cases hptr <;> decide
  obtain ⟨row, hok⟩ := hl.row_ok hrow (by cases target <;> cases hptr <;> decide)
  obtain ⟨_, hholds⟩ := hl.row_holds hok
  have hlt := hl.columnValue_lt hrow hcol
  cases target <;> cases hptr <;>
    simp only [resolveIndirection, TableId.ptrSource, if_neg hcount, hok, bind, Except.bind] <;>
    exact congrArg Except.ok (Rid.value_of_raw hholds.1 hlt)

/-- Outside the `*Ptr` table there is no logical RID. -/
theorem resolveIndirection_ptr_ok (hl : t.LaidOut h start) {target ptr : TableId}
    (hptr : target.ptrSource = some ptr) (hcount : t.rowCount ptr ≠ 0) {rid physical : Nat}
    (hok : t.resolveIndirection target rid = .ok physical) :
    t.HasRow ptr rid ∧ physical = t.columnValue ptr rid 0 := by
  have hrow : t.HasRow ptr rid := by
    by_contra hno
    cases target <;> cases hptr <;>
      · simp only [resolveIndirection, TableId.ptrSource, if_neg hcount, row_out_of_range hno,
          bind, Except.bind] at hok
        cases hok
  rw [hl.resolveIndirection_ptr hptr hrow] at hok
  exact ⟨hrow, (Except.ok.inj hok).symm⟩

end LaidOut

/-- Without a `*Ptr` table a logical RID is the physical one. -/
theorem resolveIndirection_self {t : Tables} {target : TableId}
    (h : ∀ ptr, target.ptrSource = some ptr → t.rowCount ptr = 0) (rid : Nat) :
    t.resolveIndirection target rid = .ok rid := by
  unfold resolveIndirection
  cases hptr : target.ptrSource with
  | none => rfl
  | some ptr => simp only [if_pos (h ptr hptr)]

theorem logicalRowCount_self {t : Tables} {target : TableId}
    (h : ∀ ptr, target.ptrSource = some ptr → t.rowCount ptr = 0) :
    t.logicalRowCount target = t.rowCount target := by
  unfold logicalRowCount
  cases hptr : target.ptrSource with
  | none => rfl
  | some ptr => simp [h ptr hptr]

theorem logicalRowCount_ptr {t : Tables} {target ptr : TableId}
    (hptr : target.ptrSource = some ptr) (hcount : t.rowCount ptr ≠ 0) :
    t.logicalRowCount target = t.rowCount ptr := by
  simp only [logicalRowCount, hptr, if_pos (Nat.pos_of_ne_zero hcount)]

/-! ## Parameter lists -/

/-- The accessor and the lookups agree on the parameter list of every logical method: its
range starts at the clamped `param_list` of its row, and no parameter it owns stands
before that. -/
def ParamListsAgree (t : Tables) : Prop :=
  (∀ m row range, 1 ≤ m → m ≤ t.logicalRowCount .methodDef → t.methodDef m = .ok row →
    t.paramRange m = .ok range →
    range.start = clampTo 1 (t.logicalRowCount .param + 1) (paramList row)) ∧
  (∀ p m row, t.methodOfParam p = .ok (some m) → t.methodDef m = .ok row →
    clampTo 1 (t.logicalRowCount .param + 1) (paramList row) ≤ p)

/-- The clamped `ParamList` value of a physical `MethodDef` row. -/
def clampedParamList (t : Tables) (rid : Nat) : Nat :=
  clampTo 1 (t.logicalRowCount .param + 1) (t.columnValue .methodDef rid 5)

/-- A method row that stands under the RID of a logical method has the parameter list of
the row the `MethodPtr` table names for it. -/
def PtrKeepsParamList (t : Tables) : Prop :=
  ∀ m, t.HasRow .methodPtr m → t.HasRow .methodDef m →
    t.HasRow .methodDef (t.columnValue .methodPtr m 0) →
    t.clampedParamList m = t.clampedParamList (t.columnValue .methodPtr m 0)

/-- A value that fits a `u32` is clamped alike whether or not the limit saturates. -/
theorem clampTo_listLimit (t : Tables) (target : TableId) {v : Nat} (hv : v < 2 ^ 32) :
    clampTo 1 (t.listLimit target) v = clampTo 1 (t.logicalRowCount target + 1) v := by
  unfold clampTo listLimit u32SatAdd
  split
  · rfl
  · split <;> split <;> omega

/-- The physical row of a logical method. -/
def physicalMethod (t : Tables) (m : Nat) : Nat :=
  if t.rowCount .methodPtr = 0 then m else t.columnValue .methodPtr m 0

namespace LaidOut

variable {t : Tables} {h : StreamHeader} {start : Nat}

/-- The accessor reads the physical row. -/
theorem methodDef_ok (hl : t.LaidOut h start) {m : Nat} {row : Row .methodDef}
    (hok : t.methodDef m = .ok row) :
    (t.rowCount .methodPtr = 0 ∨ t.HasRow .methodPtr m) ∧
      t.HasRow .methodDef (t.physicalMethod m) ∧
      paramList row = t.columnValue .methodDef (t.physicalMethod m) 5 := by
  have hparam : ∀ {rid}, t.row .methodDef rid = .ok row →
      t.HasRow .methodDef rid ∧ paramList row = t.columnValue .methodDef rid 5 := by
    intro rid hrow
    obtain ⟨hhas, _, _, _, _, _, hcell, _⟩ := hl.row_holds hrow
    have hlt := hl.columnValue_lt hhas (show 5 < (columnsOf .methodDef).length by decide)
    exact ⟨hhas, Rid.value_of_raw hcell hlt⟩
  unfold methodDef rowIndirect at hok
  unfold physicalMethod
  by_cases hzero : t.rowCount .methodPtr = 0
  · have hself : t.resolveIndirection .methodDef m = .ok m :=
      resolveIndirection_self (fun ptr hptr => by cases hptr; exact hzero) m
    rw [hself] at hok
    rw [if_pos hzero]
    exact ⟨.inl hzero, hparam hok⟩
  · cases hresolve : t.resolveIndirection .methodDef m with
    | error e =>
        rw [hresolve] at hok
        cases hok
    | ok physical =>
        rw [hresolve] at hok
        obtain ⟨hptr, rfl⟩ := hl.resolveIndirection_ptr_ok rfl hzero hresolve
        rw [if_neg hzero]
        exact ⟨.inr hptr, hparam hok⟩

/-- The range of a method starts at its own row's clamped `ParamList`. -/
theorem paramRange_start (hl : t.LaidOut h start) {m : Nat} {range : RidRange}
    (hrange : t.paramRange m = .ok range) :
    t.HasRow .methodDef m ∧ range.start = t.clampedParamList m := by
  have hcol : 5 < (columnsOf .methodDef).length := by decide
  obtain ⟨hrow, rfl⟩ := hl.listRange_ok hcol hrange
  refine ⟨hrow, ?_⟩
  show t.runStart .methodDef 5 .param m = _
  rw [runStart, if_pos hrow.2, clampTo_listLimit t .param (hl.columnValue_lt hrow hcol),
    clampedParamList]

/-- Where the indirection keeps the parameter lists, a logical method and its physical row
have the same one. -/
theorem clampedParamList_physical (hkeeps : t.PtrKeepsParamList) {m : Nat}
    (hptr : t.rowCount .methodPtr = 0 ∨ t.HasRow .methodPtr m) (hrow : t.HasRow .methodDef m)
    (hphysical : t.HasRow .methodDef (t.physicalMethod m)) :
    t.clampedParamList m = t.clampedParamList (t.physicalMethod m) := by
  unfold physicalMethod at hphysical ⊢
  by_cases hzero : t.rowCount .methodPtr = 0
  · rw [if_pos hzero]
  · rw [if_neg hzero] at hphysical ⊢
    exact hkeeps m (hptr.resolve_left hzero) hrow hphysical

end LaidOut

/-- The typed accessor and the parameter lookups mean the same method exactly when every
method row that a logical RID skips has the same clamped `ParamList` as the row it is
redirected to. -/
theorem paramLists_agree_iff {data : List UInt8} {base : Nat} {uncompressed : Bool}
    {s : Strictness} {ds ds' : List Diagnostic} {t : Tables}
    (hrun : parse data base uncompressed s ds = .ok (t, ds')) :
    t.ParamListsAgree ↔ t.PtrKeepsParamList := by
  obtain ⟨⟨_, _, hl⟩, _⟩ := parse_spec hrun
  constructor
  · intro hagree m hptr hrow hphysical
    have hzero : t.rowCount .methodPtr ≠ 0 := by
      have h1 := hptr.1
      have h2 := hptr.2
      omega
    obtain ⟨row, hok⟩ := hl.row_ok hphysical (by decide)
    have hsource : TableId.methodDef.ptrSource = some .methodPtr := rfl
    have hmethod : t.methodDef m = .ok row := by
      simp only [methodDef, rowIndirect, hl.resolveIndirection_ptr hsource hptr, bind,
        Except.bind, hok]
    have hcol : 5 < (columnsOf .methodDef).length := by decide
    have hrange : t.paramRange m = .ok (t.rangeOf .methodDef 5 .param m) :=
      hl.listRange_eq hrow hcol .param
    have hle : m ≤ t.logicalRowCount .methodDef := by
      rw [logicalRowCount_ptr hsource hzero]
      exact hptr.2
    have hstart := hagree.1 m row _ hptr.1 hle hmethod hrange
    obtain ⟨_, _, hparam⟩ := hl.methodDef_ok hmethod
    rw [physicalMethod, if_neg hzero] at hparam
    rw [(hl.paramRange_start hrange).2, hparam] at hstart
    exact hstart
  · intro hkeeps
    constructor
    · intro m row range _ _ hmethod hrange
      obtain ⟨hptr, hphysical, hparam⟩ := hl.methodDef_ok hmethod
      obtain ⟨hrow, hstart⟩ := hl.paramRange_start hrange
      rw [hstart, hparam]
      exact LaidOut.clampedParamList_physical hkeeps hptr hrow hphysical
    · intro p m row howner hmethod
      obtain ⟨range, hrange, hcontains⟩ := ownerOfList_some howner
      obtain ⟨hptr, hphysical, hparam⟩ := hl.methodDef_ok hmethod
      obtain ⟨hrow, hstart⟩ := hl.paramRange_start hrange
      have hsame := LaidOut.clampedParamList_physical hkeeps hptr hrow hphysical
      have hle := (RidRange.contains_iff.mp hcontains).1
      rw [hparam]
      rw [hstart, hsame] at hle
      exact hle

/-- Two methods reversed by `MethodPtr`, with the `ParamList`s 1 and 2, and two
parameters. -/
def reversedMethods : List UInt8 :=
  [0, 0, 0, 0, 2, 0, 0, 1, 0x60, 0x01, 0, 0, 0, 0, 0, 0, 0, 0, 0, 0, 0, 0, 0, 0,
    2, 0, 0, 0, 2, 0, 0, 0, 2, 0, 0, 0, 2, 0, 1, 0,
    0, 0, 0, 0, 0, 0, 0, 0, 0, 0, 0, 0, 1, 0, 0, 0, 0, 0, 0, 0, 0, 0, 0, 0, 0, 0, 2, 0,
    0, 0, 0, 0, 0, 0, 0, 0, 0, 0, 0, 0]

theorem reversedMethods_agree_iff : ∃ t ds',
    parse reversedMethods 0 true .strict [] = .ok (t, ds') ∧
      (t.ParamListsAgree ↔ t.PtrKeepsParamList) := by
  have hok : (parse reversedMethods 0 true .strict []).isOk := by decide +kernel
  obtain ⟨⟨t, ds'⟩, hrun⟩ := exists_ok_of_isOk hok
  exact ⟨t, ds', hrun, paramLists_agree_iff hrun⟩

/-- `method_def(1)` is the second row, whose parameters start at 2; `param_range(1)` starts
at 1. -/
theorem reversedMethods_disagree : ¬ ∀ (data : List UInt8) (base : Nat) (uncompressed : Bool)
    (s : Strictness) (ds ds' : List Diagnostic) (t : Tables),
    parse data base uncompressed s ds = .ok (t, ds') → t.ParamListsAgree := by
  intro hclaim
  have hok : (parse reversedMethods 0 true .strict []).isOk := by decide +kernel
  obtain ⟨⟨t, ds'⟩, hrun⟩ := exists_ok_of_isOk hok
  have hparams : ((parse reversedMethods 0 true .strict []).toOption.map fun r =>
      (r.1.methodDef 1).toOption.map paramList) = some (some 2) := by decide +kernel
  have hranges : ((parse reversedMethods 0 true .strict []).toOption.map fun r =>
      (r.1.paramRange 1).toOption) = some (some ⟨1, 2⟩) := by decide +kernel
  have hcounts : ((parse reversedMethods 0 true .strict []).toOption.map fun r =>
      (r.1.logicalRowCount .methodDef, r.1.logicalRowCount .param)) = some (2, 2) := by
    decide +kernel
  rw [hrun] at hparams hranges hcounts
  have hparam : (t.methodDef 1).toOption.map paramList = some 2 := Option.some.inj hparams
  have hrange : (t.paramRange 1).toOption = some ⟨1, 2⟩ := Option.some.inj hranges
  have hcount := Option.some.inj hcounts
  obtain ⟨row, hrow, hvalue⟩ := Option.map_eq_some_iff.mp hparam
  have hstart := (hclaim reversedMethods 0 true .strict [] ds' t hrun).1 1 row ⟨1, 2⟩
    (Nat.le_refl _) (by rw [(Prod.mk.inj hcount).1]; decide) (ok_of_toOption hrow)
    (ok_of_toOption hrange)
  rw [hvalue, (Prod.mk.inj hcount).2] at hstart
  exact absurd hstart (by decide)

end Tables

end Cildec
