import Mathlib.Data.List.Basic
import Mathlib.Data.List.Pairwise

/-!
# Modifiers and their targets

A list cut into groups, each some modifiers followed by the target they modify. Where no
target is a modifier the cut is forced by the list (`Grouped.cut`). In a list ordered by a
key, the modifiers of a group are the items between the key it starts at and the key of
its target (`filter_group`).
-/

namespace Wire

variable {α : Type}

/-! ## Groups -/

/-- The groups written out: each target after its modifiers. -/
def flattenGroups (groups : List (List α × α)) : List α := groups.flatMap fun g => g.1 ++ [g.2]

theorem flattenGroups_cons (ps : List α) (t : α) (groups : List (List α × α)) :
    flattenGroups ((ps, t) :: groups) = ps ++ t :: flattenGroups groups := by
  simp [flattenGroups]

/-- The list can be cut into groups that satisfy `L`. -/
def Grouped (L : List α → α → Prop) (xs : List α) : Prop :=
  ∃ groups, xs = flattenGroups groups ∧ ∀ g ∈ groups, L g.1 g.2

theorem Grouped.nil (L : List α → α → Prop) : Grouped L [] := ⟨[], rfl, by simp⟩

theorem Grouped.cons {L : List α → α → Prop} {ps xs : List α} {t : α} (h : L ps t)
    (hxs : Grouped L xs) : Grouped L (ps ++ t :: xs) := by
  obtain ⟨groups, rfl, hall⟩ := hxs
  refine ⟨(ps, t) :: groups, (flattenGroups_cons ps t groups).symm, ?_⟩
  intro g hg
  rcases List.mem_cons.mp hg with rfl | hg
  · exact h
  · exact hall g hg

/-- Modifiers at the front belong to the first target that follows them. -/
theorem split_target {M : α → Prop} {ps xs qs ys : List α} {t : α} (hps : ∀ p ∈ ps, M p)
    (ht : ¬ M t) (h : ps ++ xs = qs ++ t :: ys) : ∃ rs, qs = ps ++ rs ∧ xs = rs ++ t :: ys := by
  rcases List.append_eq_append_iff.mp h with ⟨rs, hqs, hxs⟩ | ⟨rs, hps', hxs⟩
  · exact ⟨rs, hqs, hxs⟩
  · cases rs with
    | nil => exact ⟨[], by simpa using hps'.symm, by simpa using hxs.symm⟩
    | cons r rs =>
        rw [List.cons_append] at hxs
        obtain ⟨rfl, _⟩ := List.cons.inj hxs
        exact absurd (hps t (by rw [hps']; simp)) ht

section Cut

variable {M : α → Prop} {L : List α → α → Prop} {ps xs : List α} {t : α}

/-- The first group of a list that starts with the modifiers `ps`. -/
theorem Grouped.cut (hL : ∀ ps t, L ps t → ¬ M t) (hps : ∀ p ∈ ps, M p)
    (hne : ps ++ xs ≠ []) (h : Grouped L (ps ++ xs)) :
    ∃ rs t ys, L (ps ++ rs) t ∧ xs = rs ++ t :: ys ∧ Grouped L ys := by
  obtain ⟨groups, hflat, hall⟩ := h
  cases groups with
  | nil => exact absurd hflat hne
  | cons g groups =>
      have hg := hall g List.mem_cons_self
      have hflat' : ps ++ xs = g.1 ++ g.2 :: flattenGroups groups :=
        hflat.trans (flattenGroups_cons g.1 g.2 groups)
      obtain ⟨rs, hmods, hxs⟩ := split_target hps (hL _ _ hg) hflat'
      rw [hmods] at hg
      exact ⟨rs, g.2, _, hg, hxs, groups, rfl, fun g' hg' => hall g' (List.mem_cons_of_mem _ hg')⟩

/-- Modifiers without a target cannot be grouped. -/
theorem Grouped.eq_nil_of_modifiers (hL : ∀ ps t, L ps t → ¬ M t) (hps : ∀ p ∈ ps, M p)
    (h : Grouped L ps) : ps = [] := by
  by_contra hne
  rw [← List.append_nil ps] at h hne
  obtain ⟨rs, t, ys, _, hnil, _⟩ := h.cut hL hps hne
  simp at hnil

/-- A target closes the group of the modifiers before it. -/
theorem Grouped.target (hL : ∀ ps t, L ps t → ¬ M t) (hM : ∀ ps t, L ps t → ∀ p ∈ ps, M p)
    (hps : ∀ p ∈ ps, M p) (ht : ¬ M t) (h : Grouped L (ps ++ t :: xs)) :
    L ps t ∧ Grouped L xs := by
  obtain ⟨rs, t', ys, hgroup, hxs, hys⟩ := h.cut hL hps (by simp)
  cases rs with
  | nil =>
      rw [List.nil_append] at hxs
      obtain ⟨rfl, rfl⟩ := List.cons.inj hxs
      rw [List.append_nil] at hgroup
      exact ⟨hgroup, hys⟩
  | cons r rs =>
      rw [List.cons_append] at hxs
      obtain ⟨rfl, _⟩ := List.cons.inj hxs
      exact absurd (hM _ _ hgroup t (by simp)) ht

end Cut

/-! ## Groups of an ordered list -/

/-- The modifiers of a group, found again by their keys: `first` is where the group starts. -/
theorem filter_group {key : α → Nat} {before ps after : List α} {t : α} {first : Nat}
    (hsorted : (before ++ (ps ++ t :: after)).Pairwise fun a b => key a < key b)
    (hfirst : (ps ++ [t]).head?.map key = some first) :
    (before ++ (ps ++ t :: after)).filter (fun x => decide (first ≤ key x ∧ key x < key t)) =
      ps := by
  obtain ⟨_, hgroup, hbefore⟩ := List.pairwise_append.mp hsorted
  obtain ⟨hps, htail, hmods⟩ := List.pairwise_append.mp hgroup
  obtain ⟨hafter, _⟩ := List.pairwise_cons.mp htail
  -- what comes before has smaller keys than the first of the group
  have hnone : before.filter (fun x => decide (first ≤ key x ∧ key x < key t)) = [] := by
    refine List.filter_eq_nil_iff.mpr fun x hx => ?_
    have hlt : key x < first := by
      cases ps with
      | nil =>
          cases hfirst
          exact hbefore x hx t (by simp)
      | cons p ps =>
          cases hfirst
          exact hbefore x hx p (by simp)
    simp only [decide_eq_true_eq]
    omega
  have hall : ps.filter (fun x => decide (first ≤ key x ∧ key x < key t)) = ps := by
    refine List.filter_eq_self.mpr fun x hx => ?_
    have hlt := hmods x hx t List.mem_cons_self
    have hle : first ≤ key x := by
      cases ps with
      | nil => cases hx
      | cons p ps =>
          cases hfirst
          rcases List.mem_cons.mp hx with rfl | hx
          · exact Nat.le_refl _
          · exact Nat.le_of_lt ((List.pairwise_cons.mp hps).1 x hx)
    simp only [decide_eq_true_eq]
    exact ⟨hle, hlt⟩
  have hrest : (t :: after).filter (fun x => decide (first ≤ key x ∧ key x < key t)) = [] := by
    refine List.filter_eq_nil_iff.mpr fun x hx => ?_
    simp only [decide_eq_true_eq]
    rcases List.mem_cons.mp hx with rfl | hx
    · omega
    · have := hafter x hx
      omega
  rw [List.filter_append, List.filter_append, hnone, hall, hrest, List.nil_append,
    List.append_nil]

end Wire
