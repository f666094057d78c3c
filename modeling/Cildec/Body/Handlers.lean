import Cildec.Body.Delimited
import Cildec.Lib.Ranges

/-!
# Exception tables (`src/body.rs`)

`validateHandlers` checks every clause by itself, and every two clauses against each other.
The code of a parsed body is shorter than 2³² bytes, so a range that lies in it has an end
that does not saturate, and the verdict is one about numbers (`validate_handlers_iff`).
-/

namespace Cildec

open Wire

def handlerContext : String := "exception handler"

def filterContext : String := "exception filter"

def nestingContext : String := "exception handler nesting"

namespace ExceptionHandler

/-- The end IL offset of the protected block, saturating on overflow. -/
def tryEnd (h : ExceptionHandler) : Nat := satAdd32 h.tryOffset.toNat h.tryLength.toNat

/-- The end IL offset of the handler, saturating on overflow. -/
def handlerEnd (h : ExceptionHandler) : Nat := satAdd32 h.handlerOffset.toNat h.handlerLength.toNat

end ExceptionHandler

/-- Two half-open ranges overlap without one containing the other. -/
def partiallyOverlaps (aStart aEnd bStart bEnd : Nat) : Bool :=
  let overlaps := decide (aStart < bEnd) && decide (bStart < aEnd)
  if !overlaps then false
  else
    let aInB := decide (bStart ≤ aStart) && decide (aEnd ≤ bEnd)
    let bInA := decide (aStart ≤ bStart) && decide (bEnd ≤ aEnd)
    !aInB && !bInA

/-- How the ends of the ranges of a clause are computed. -/
structure Ends where
  tryEnd : ExceptionHandler → Nat
  handlerEnd : ExceptionHandler → Nat

/-- The ends the source computes. -/
def Ends.saturating : Ends := ⟨ExceptionHandler.tryEnd, ExceptionHandler.handlerEnd⟩

/-- The ends as unbounded numbers. -/
def Ends.exact : Ends where
  tryEnd h := h.tryOffset.toNat + h.tryLength.toNat
  handlerEnd h := h.handlerOffset.toNat + h.handlerLength.toNat

namespace ExceptionHandler

/-- What is checked of the `i`-th clause by itself, against code of `codeLen` bytes. -/
def checkRanges (h : ExceptionHandler) (ends : Ends) (codeLen i : Nat) : Result Unit :=
  let tryEnd := h.tryOffset.toNat + h.tryLength.toNat
  let handlerEnd := h.handlerOffset.toNat + h.handlerLength.toNat
  if codeLen < tryEnd ∨ codeLen < handlerEnd then
    .error (Error.new .outOfRange i handlerContext)
  else if h.tryLength = 0 ∨ h.handlerLength = 0 then
    .error (Error.new .malformed i handlerContext)
  -- a handler may not lie inside the block it protects
  else if h.handlerOffset.toNat < ends.tryEnd h ∧ h.tryOffset.toNat < ends.handlerEnd h then
    .error (Error.new .malformed i handlerContext)
  else
    match h.kind with
    | .filter filterOffset =>
        if codeLen ≤ filterOffset.toNat then .error (Error.new .outOfRange i filterContext)
        else if h.handlerOffset.toNat ≤ filterOffset.toNat then
          .error (Error.new .malformed i filterContext)
        else .ok ()
    | _ => .ok ()

/-- What is checked of the `i`-th clause against another one. -/
def checkNesting (h other : ExceptionHandler) (ends : Ends) (i : Nat) : Result Unit :=
  if partiallyOverlaps h.tryOffset.toNat (ends.tryEnd h) other.tryOffset.toNat
      (ends.tryEnd other) then
    .error (Error.new .malformed i nestingContext)
  else if partiallyOverlaps h.handlerOffset.toNat (ends.handlerEnd h) other.handlerOffset.toNat
      (ends.handlerEnd other) then
    .error (Error.new .malformed i nestingContext)
  else .ok ()

end ExceptionHandler

/-- Checks an exception table against II.25.4.6. -/
def validateTable (handlers : List ExceptionHandler) (codeLen : Nat) (ends : Ends) :
    Result Unit :=
  handlers.zipIdx.forM fun h => do
    h.1.checkRanges ends codeLen h.2
    handlers.zipIdx.forM fun other =>
      if h.2 = other.2 then .ok () else h.1.checkNesting other.1 ends h.2

namespace MethodBody

/-- Checks the exception table of a body. -/
def validateHandlers (body : MethodBody) : Result Unit :=
  validateTable body.exceptionHandlers body.code.length .saturating

end MethodBody

/-! ## Regions -/

namespace ExceptionHandler

def tryRange (h : ExceptionHandler) : Range Nat :=
  ⟨h.tryOffset.toNat, h.tryOffset.toNat + h.tryLength.toNat⟩

def handlerRange (h : ExceptionHandler) : Range Nat :=
  ⟨h.handlerOffset.toNat, h.handlerOffset.toNat + h.handlerLength.toNat⟩

/-- The filter of a clause, which ends where the handler begins. -/
def filterRanges (h : ExceptionHandler) : List (Range Nat) :=
  match h.kind with
  | .filter filterOffset => [⟨filterOffset.toNat, h.handlerOffset.toNat⟩]
  | _ => []

/-- A clause that stands by itself in code of `length` bytes. -/
structure Legal (h : ExceptionHandler) (length : Nat) : Prop where
  try_in : h.tryOffset.toNat + h.tryLength.toNat ≤ length
  handler_in : h.handlerOffset.toNat + h.handlerLength.toNat ≤ length
  try_nonempty : h.tryLength.toNat ≠ 0
  handler_nonempty : h.handlerLength.toNat ≠ 0
  apart : h.tryRange.Apart h.handlerRange
  filter_in : ∀ o, h.kind = .filter o → o.toNat < length ∧ o.toNat < h.handlerOffset.toNat

/-- Two clauses whose ranges of a kind are nested or disjoint. -/
def Compatible (a b : ExceptionHandler) : Prop :=
  a.tryRange.NestedOrDisjoint b.tryRange ∧ a.handlerRange.NestedOrDisjoint b.handlerRange

theorem Legal.try_lt {h : ExceptionHandler} {length : Nat} (hlegal : h.Legal length) :
    h.tryRange.start < h.tryRange.stop := by
  have hne := hlegal.try_nonempty
  show h.tryOffset.toNat < h.tryOffset.toNat + h.tryLength.toNat
  omega

theorem Legal.handler_lt {h : ExceptionHandler} {length : Nat} (hlegal : h.Legal length) :
    h.handlerRange.start < h.handlerRange.stop := by
  have hne := hlegal.handler_nonempty
  show h.handlerOffset.toNat < h.handlerOffset.toNat + h.handlerLength.toNat
  omega

end ExceptionHandler

/-- A table of clauses that stand in code of `length` bytes, by themselves and beside each
other. -/
def LegalTable (handlers : List ExceptionHandler) (length : Nat) : Prop :=
  (∀ h ∈ handlers, h.Legal length) ∧ ∀ a ∈ handlers, ∀ b ∈ handlers, a.Compatible b

/-! ## The verdict -/

/-- The ends are right for the ranges that lie in code of `length` bytes. -/
structure Ends.RightTo (ends : Ends) (length : Nat) : Prop where
  tryEnd : ∀ h : ExceptionHandler, h.tryRange.stop ≤ length → ends.tryEnd h = h.tryRange.stop
  handlerEnd : ∀ h : ExceptionHandler, h.handlerRange.stop ≤ length →
    ends.handlerEnd h = h.handlerRange.stop

theorem Ends.exact_rightTo (length : Nat) : Ends.exact.RightTo length :=
  ⟨fun _ _ => rfl, fun _ _ => rfl⟩

/-- A range that lies in the code of a body has an end that is a `u32`. -/
theorem Ends.saturating_rightTo {length : Nat} (hlen : length ≤ u32Max) :
    Ends.saturating.RightTo length :=
  ⟨fun _ h => Nat.min_eq_left (h.trans hlen), fun _ h => Nat.min_eq_left (h.trans hlen)⟩

/-- The comparison decides whether two ranges that hold a point are nested or disjoint. -/
theorem partiallyOverlaps_eq_false_iff {a b : Range Nat} (ha : a.start < a.stop)
    (hb : b.start < b.stop) :
    partiallyOverlaps a.start a.stop b.start b.stop = false ↔ a.NestedOrDisjoint b := by
  rw [Range.nestedOrDisjoint_iff ha hb, partiallyOverlaps]
  simp only [Bool.not_eq_true', Bool.and_eq_false_iff, Bool.and_eq_true, decide_eq_true_eq,
    decide_eq_false_iff_not, ite_eq_left_iff, Bool.not_eq_false']
  omega

namespace ExceptionHandler

variable {ends : Ends} {length : Nat}

theorem checkRanges_ok_iff (hends : ends.RightTo length) (h : ExceptionHandler) (i : Nat) :
    h.checkRanges ends length i = .ok () ↔ h.Legal length := by
  have hzero (v : UInt32) : v = 0 ↔ v.toNat = 0 := UInt32.toNat_inj.symm
  have hfilter (o : UInt32) : o.toNat < length ∧ o.toNat < h.handlerOffset.toNat ↔
      ¬ length ≤ o.toNat ∧ ¬ h.handlerOffset.toNat ≤ o.toNat := by
    rw [Nat.not_le, Nat.not_le]
  simp only [checkRanges, error_if_ok_iff, not_or, Nat.not_lt, hzero]
  constructor
  · rintro ⟨⟨htry, hhandler⟩, ⟨htryne, hhandlerne⟩, hapart, hkind⟩
    have htrylt : h.tryRange.start < h.tryRange.stop := Nat.lt_add_of_pos_right (Nat.pos_of_ne_zero htryne)
    have hhandlerlt : h.handlerRange.start < h.handlerRange.stop :=
      Nat.lt_add_of_pos_right (Nat.pos_of_ne_zero hhandlerne)
    refine ⟨htry, hhandler, htryne, hhandlerne, ?_, ?_⟩
    · rw [hends.tryEnd h htry, hends.handlerEnd h hhandler] at hapart
      rw [Range.apart_iff htrylt hhandlerlt]
      show h.tryRange.stop ≤ h.handlerOffset.toNat ∨ h.handlerRange.stop ≤ h.tryOffset.toNat
      omega
    · intro o ho
      rw [ho] at hkind
      simp only [error_if_ok_iff] at hkind
      exact (hfilter o).mpr ⟨hkind.1, hkind.2.1⟩
  · intro hlegal
    refine ⟨⟨hlegal.try_in, hlegal.handler_in⟩, ⟨hlegal.try_nonempty, hlegal.handler_nonempty⟩,
      ?_, ?_⟩
    · have hapart := (Range.apart_iff hlegal.try_lt hlegal.handler_lt).mp hlegal.apart
      rw [hends.tryEnd h hlegal.try_in, hends.handlerEnd h hlegal.handler_in]
      have hapart : h.tryRange.stop ≤ h.handlerOffset.toNat ∨
          h.handlerRange.stop ≤ h.tryOffset.toNat := hapart
      omega
    · cases hkind : h.kind with
      | filter o =>
          obtain ⟨hin, hbefore⟩ := (hfilter o).mp (hlegal.filter_in o hkind)
          exact error_if_ok_iff.mpr ⟨hin, error_if_ok_iff.mpr ⟨hbefore, rfl⟩⟩
      | catchType token => rfl
      | finallyBlock => rfl
      | fault => rfl

theorem checkNesting_ok_iff (hends : ends.RightTo length) {h other : ExceptionHandler}
    (hlegal : h.Legal length) (hother : other.Legal length) (i : Nat) :
    h.checkNesting other ends i = .ok () ↔ h.Compatible other := by
  have htry := partiallyOverlaps_eq_false_iff hlegal.try_lt hother.try_lt
  have hhandler := partiallyOverlaps_eq_false_iff hlegal.handler_lt hother.handler_lt
  rw [checkNesting, hends.tryEnd h hlegal.try_in, hends.tryEnd other hother.try_in,
    hends.handlerEnd h hlegal.handler_in, hends.handlerEnd other hother.handler_in,
    error_if_ok_iff, error_if_ok_iff, Bool.not_eq_true, Bool.not_eq_true, Compatible, ← htry,
    ← hhandler]
  constructor
  · rintro ⟨h1, h2, _⟩
    exact ⟨h1, h2⟩
  · rintro ⟨h1, h2⟩
    exact ⟨h1, h2, rfl⟩

end ExceptionHandler

/-- The table is accepted when every clause is legal and every two are compatible, with any
ends that are right for the ranges in the code: a range that is not in the code fails before
its end is compared. -/
theorem validateTable_ok_iff {ends : Ends} {length : Nat} (hends : ends.RightTo length)
    (handlers : List ExceptionHandler) :
    validateTable handlers length ends = .ok () ↔ LegalTable handlers length := by
  rw [validateTable, forM_ok_iff]
  constructor
  · intro hall
    have hclause {h : ExceptionHandler} {i : Nat} (hi : handlers[i]? = some h) :
        h.Legal length ∧ ∀ j other, handlers[j]? = some other → i ≠ j →
          h.checkNesting other ends i = .ok () := by
      obtain ⟨_, hranges, hnesting⟩ := ok_bind_iff.mp (hall (h, i) (List.mk_mem_zipIdx_iff_getElem?.mpr hi))
      refine ⟨(h.checkRanges_ok_iff hends i).mp hranges, ?_⟩
      intro j other hj hij
      have hstep := forM_ok_iff.mp hnesting (other, j) (List.mk_mem_zipIdx_iff_getElem?.mpr hj)
      rwa [if_neg hij] at hstep
    refine ⟨?_, ?_⟩
    · intro h hmem
      obtain ⟨i, hi⟩ := List.mem_iff_getElem?.mp hmem
      exact (hclause hi).1
    · intro a ha b hb
      obtain ⟨i, hi⟩ := List.mem_iff_getElem?.mp ha
      obtain ⟨j, hj⟩ := List.mem_iff_getElem?.mp hb
      -- a clause is not compared with itself
      by_cases hij : i = j
      · subst hij
        rw [hi] at hj
        cases hj
        exact ⟨Range.NestedOrDisjoint.refl _, Range.NestedOrDisjoint.refl _⟩
      · exact (ExceptionHandler.checkNesting_ok_iff hends (hclause hi).1 (hclause hj).1 i).mp
          ((hclause hi).2 j b hj hij)
  · rintro ⟨hlegal, hcompatible⟩ x hx
    have hmem : x.1 ∈ handlers := List.mem_iff_getElem?.mpr ⟨_, List.mem_zipIdx_iff_getElem?.mp hx⟩
    refine ok_bind_iff.mpr ⟨(), (x.1.checkRanges_ok_iff hends x.2).mpr (hlegal _ hmem), ?_⟩
    refine forM_ok_iff.mpr fun y hy => ?_
    have hmem' : y.1 ∈ handlers := List.mem_iff_getElem?.mpr ⟨_, List.mem_zipIdx_iff_getElem?.mp hy⟩
    by_cases hxy : x.2 = y.2
    · rw [if_pos hxy]
    · rw [if_neg hxy]
      exact (ExceptionHandler.checkNesting_ok_iff hends (hlegal _ hmem) (hlegal _ hmem') x.2).mpr
        (hcompatible _ hmem _ hmem')

/-- The code of a parsed body has a length that is a `u32`. -/
theorem MethodBody.code_length_le {bytes : List UInt8} {codeRva : UInt32} {strictness : Strictness}
    {body : MethodBody} (hok : MethodBody.parseWith bytes codeRva strictness = .ok body) :
    body.code.length ≤ u32Max := by
  cases bytes with
  | nil => cases hok
  | cons first tl =>
      by_cases htiny : first &&& 0x03 = 0x02
      · obtain ⟨_, rfl⟩ := (parseWith_tiny_ok_iff htiny).mp hok
        have hsize := (first >>> 2).toNat_lt
        have htake := List.length_take_le (first >>> 2).toNat tl
        show (tl.take _).length ≤ 2 ^ 32 - 1
        omega
      · by_cases hfat : first &&& 0x03 = 0x03
        · obtain ⟨r, hrun⟩ := (parseWith_fat_ok_iff hfat).mp hok
          obtain ⟨_, _, ds, sections, _, _, _, rfl⟩ := parseFat_ok_iff.mp hrun
          have hsize : (fatHeader (first :: tl)).codeSize < 2 ^ 32 := UInt32.toNat_lt _
          have htake := List.length_take_le (fatHeader (first :: tl)).codeSize
            ((first :: tl).drop (fatHeader (first :: tl)).size)
          show (List.take _ _).length ≤ 2 ^ 32 - 1
          omega
        · obtain ⟨r, hrun⟩ := MethodBody.parseWith_ok_iff.mp hok
          rw [parseBody_run, if_neg htiny, if_neg hfat] at hrun
          cases hrun

/-- What the check of a parsed body decides: that every clause is legal and every two are
compatible, as unbounded numbers. So neither the order of the clauses nor the saturation of
the ends has a part in the verdict. -/
theorem validate_handlers_iff {bytes : List UInt8} {codeRva : UInt32} {strictness : Strictness}
    {body : MethodBody} (hok : MethodBody.parseWith bytes codeRva strictness = .ok body) :
    (body.validateHandlers = .ok () ↔ LegalTable body.exceptionHandlers body.code.length) ∧
    (∀ handlers : List ExceptionHandler, handlers.Perm body.exceptionHandlers →
      ({ body with exceptionHandlers := handlers }.validateHandlers = .ok () ↔
        body.validateHandlers = .ok ())) ∧
    (body.validateHandlers = .ok () ↔
      validateTable body.exceptionHandlers body.code.length .exact = .ok ()) := by
  have hends := Ends.saturating_rightTo (MethodBody.code_length_le hok)
  have hiff (handlers : List ExceptionHandler) := validateTable_ok_iff hends handlers
  refine ⟨hiff _, ?_, ?_⟩
  · intro handlers hperm
    refine (hiff handlers).trans (Iff.trans ?_ (hiff _).symm)
    simp only [LegalTable, hperm.mem_iff]
  · exact (hiff _).trans (validateTable_ok_iff (Ends.exact_rightTo _) _).symm

theorem validate_handlers_finally :
    ((Body.fat finallyBody).parsed 0).validateHandlers = .ok () ↔
      LegalTable ((Body.fat finallyBody).parsed 0).exceptionHandlers 3 :=
  (validate_handlers_iff (MethodBody.parse_enc (.fat finallyBody) [] 0)).1

/-! ## Regions of different kinds -/

/-- The comparison of the source, between two regions. -/
def Crosses (a b : Range Nat) : Prop := partiallyOverlaps a.start a.stop b.start b.stop = true

instance (a b : Range Nat) : Decidable (Crosses a b) := inferInstanceAs (Decidable (_ = true))

/-- The regions of a clause: its protected block, its handler and its filter. -/
def ExceptionHandler.regions (h : ExceptionHandler) : List (Range Nat) :=
  h.tryRange :: h.handlerRange :: h.filterRanges

/-- The regions of a body. -/
def MethodBody.regions (body : MethodBody) : List (Range Nat) :=
  body.exceptionHandlers.flatMap ExceptionHandler.regions

/-- The pairs of regions the source does not compare are not crossed: a block with a handler,
and a filter with a block, a handler or another filter. -/
def MixedUncrossed (handlers : List ExceptionHandler) : Prop :=
  ∀ a ∈ handlers, ∀ b ∈ handlers, ¬ Crosses a.tryRange b.handlerRange ∧
    ∀ f ∈ a.filterRanges, ¬ Crosses f b.tryRange ∧ ¬ Crosses f b.handlerRange ∧
      ∀ g ∈ b.filterRanges, ¬ Crosses f g

instance (handlers : List ExceptionHandler) : Decidable (MixedUncrossed handlers) :=
  inferInstanceAs (Decidable (∀ a ∈ handlers, ∀ b ∈ handlers, _))

theorem not_crosses_iff {a b : Range Nat} (ha : a.start < a.stop) (hb : b.start < b.stop) :
    ¬ Crosses a b ↔ a.NestedOrDisjoint b := by
  rw [Crosses, Bool.not_eq_true, partiallyOverlaps_eq_false_iff ha hb]

namespace ExceptionHandler

/-- A filter of a legal clause holds its first instruction. -/
theorem Legal.filter_lt {h : ExceptionHandler} {length : Nat} (hlegal : h.Legal length) :
    ∀ f ∈ h.filterRanges, f.start < f.stop := by
  intro f hf
  unfold filterRanges at hf
  split at hf
  · rename_i o hkind
    cases List.mem_singleton.mp hf
    exact (hlegal.filter_in o hkind).2
  · cases hf

end ExceptionHandler

/-- When the regions of an accepted table are nested or disjoint, of whatever kind they are:
exactly when the pairs that are left out of the comparison do not cross. -/
theorem nested_regions_iff {bytes : List UInt8} {codeRva : UInt32} {strictness : Strictness}
    {body : MethodBody} (hok : MethodBody.parseWith bytes codeRva strictness = .ok body)
    (hvalid : body.validateHandlers = .ok ()) :
    (∀ a ∈ body.regions, ∀ b ∈ body.regions, a.NestedOrDisjoint b) ↔
      MixedUncrossed body.exceptionHandlers := by
  obtain ⟨hlegal, hcompatible⟩ := (validateTable_ok_iff
    (Ends.saturating_rightTo (MethodBody.code_length_le hok)) _).mp hvalid
  have hmem {r : Range Nat} : r ∈ body.regions ↔ ∃ h ∈ body.exceptionHandlers,
      r = h.tryRange ∨ r = h.handlerRange ∨ r ∈ h.filterRanges := by
    simp only [MethodBody.regions, ExceptionHandler.regions, List.mem_flatMap, List.mem_cons]
  constructor
  · intro hnested a ha b hb
    have hla := hlegal a ha
    have hlb := hlegal b hb
    refine ⟨?_, ?_⟩
    · exact (not_crosses_iff hla.try_lt hlb.handler_lt).mpr (hnested _ (hmem.mpr ⟨a, ha, .inl rfl⟩) _
        (hmem.mpr ⟨b, hb, .inr (.inl rfl)⟩))
    · intro f hf
      have hfilter := hmem.mpr ⟨a, ha, .inr (.inr hf)⟩
      refine ⟨?_, ?_, ?_⟩
      · exact (not_crosses_iff (hla.filter_lt f hf) hlb.try_lt).mpr (hnested _ hfilter _
          (hmem.mpr ⟨b, hb, .inl rfl⟩))
      · exact (not_crosses_iff (hla.filter_lt f hf) hlb.handler_lt).mpr (hnested _ hfilter _
          (hmem.mpr ⟨b, hb, .inr (.inl rfl)⟩))
      · intro g hg
        exact (not_crosses_iff (hla.filter_lt f hf) (hlb.filter_lt g hg)).mpr
          (hnested _ hfilter _ (hmem.mpr ⟨b, hb, .inr (.inr hg)⟩))
  · intro hmixed r hr r' hr'
    obtain ⟨a, ha, hra⟩ := hmem.mp hr
    obtain ⟨b, hb, hrb⟩ := hmem.mp hr'
    have hla := hlegal a ha
    have hlb := hlegal b hb
    obtain ⟨htries, hhandlers⟩ := hcompatible a ha b hb
    obtain ⟨hab, hfab⟩ := hmixed a ha b hb
    obtain ⟨hba, hfba⟩ := hmixed b hb a ha
    -- which of its clause's blocks each region is; validation itself covers two of the nine
    -- cases
    rcases hra with rfl | rfl | hf
    · rcases hrb with rfl | rfl | hg
      · exact htries
      · exact (not_crosses_iff hla.try_lt hlb.handler_lt).mp hab
      · exact ((not_crosses_iff (hlb.filter_lt _ hg) hla.try_lt).mp (hfba _ hg).1).symm
    · rcases hrb with rfl | rfl | hg
      · exact ((not_crosses_iff hlb.try_lt hla.handler_lt).mp hba).symm
      · exact hhandlers
      · exact ((not_crosses_iff (hlb.filter_lt _ hg) hla.handler_lt).mp (hfba _ hg).2.1).symm
    · rcases hrb with rfl | rfl | hg
      · exact (not_crosses_iff (hla.filter_lt _ hf) hlb.try_lt).mp (hfab _ hf).1
      · exact (not_crosses_iff (hla.filter_lt _ hf) hlb.handler_lt).mp (hfab _ hf).2.1
      · exact (not_crosses_iff (hla.filter_lt _ hf) (hlb.filter_lt _ hg)).mp ((hfab _ hf).2.2 _ hg)

theorem nested_regions_finally :
    (∀ a ∈ ((Body.fat finallyBody).parsed 0).regions,
      ∀ b ∈ ((Body.fat finallyBody).parsed 0).regions, a.NestedOrDisjoint b) ↔
    MixedUncrossed ((Body.fat finallyBody).parsed 0).exceptionHandlers :=
  nested_regions_iff (MethodBody.parse_enc (.fat finallyBody) [] 0) rfl

/-- Two `finally` clauses: the handler of the first is bytes 4 to 8, the block of the second
bytes 6 to 10. -/
def crossedClauses : List Clause := [⟨2, 0, 4, 4, 4, 0⟩, ⟨2, 6, 4, 12, 2, 0⟩]

theorem crossedClauses_ok : ∀ c ∈ crossedClauses, c.Legal ∧ (false = false → c.Small) := by
  intro c hc
  rw [crossedClauses, List.mem_cons, List.mem_singleton] at hc
  rcases hc with rfl | rfl
  · exact ⟨.inr (.inr (.inl rfl)), fun _ => ⟨by decide, by decide, by decide, by decide, by decide⟩⟩
  · exact ⟨.inr (.inr (.inl rfl)), fun _ => ⟨by decide, by decide, by decide, by decide, by decide⟩⟩

theorem crossedClauses_fit :
    ((SectionContent.clauses crossedClauses).payload false).length + 4 <
      if false then 2 ^ 24 else 2 ^ 8 := by
  decide

theorem crossedTable_kindBits : (0 : UInt8) &&& 0xC1 = 0 := rfl

/-- The table of these clauses, in small form. -/
def crossedTable : DataSection :=
  ⟨false, 0, .clauses crossedClauses, crossedTable_kindBits, crossedClauses_fit,
    crossedClauses_ok⟩

theorem crossedBody_flags :
    (FatFlags.mk 0x001B).bits.toNat < 2 ^ 12 ∧ (FatFlags.mk 0x001B).bits.toNat % 4 = 3 := by
  decide

theorem crossedBody_code : (List.replicate 16 (0x00 : UInt8)).length < 2 ^ 32 := by decide

theorem crossedBody_more : (FatFlags.mk 0x001B).moreSects = !List.isEmpty [crossedTable] := rfl

/-- A body with that table. -/
def crossedBody : FatBody where
  flags := ⟨0x001B⟩
  maxStack := 1
  localVarSigTok := 0
  code := List.replicate 16 0x00
  sections := [crossedTable]
  flags_fat := crossedBody_flags
  code_short := crossedBody_code
  more_iff := crossedBody_more

/-- The table is accepted, and the handler and the block overlap in part. -/
theorem nested_regions_crossed :
    ¬ ∀ bytes codeRva strictness body, MethodBody.parseWith bytes codeRva strictness = .ok body →
      body.validateHandlers = .ok () →
      ∀ a ∈ body.regions, ∀ b ∈ body.regions, a.NestedOrDisjoint b := by
  intro h
  have hcross := h _ 0 .permissive _ (MethodBody.parse_enc (.fat crossedBody) [] 0) rfl
    ⟨4, 8⟩ (by decide) ⟨6, 10⟩ (by decide)
  rw [Range.nestedOrDisjoint_iff (by decide) (by decide)] at hcross
  exact absurd hcross (by decide)

end Cildec
