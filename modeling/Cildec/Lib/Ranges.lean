import Mathlib.Order.Interval.Set.LinearOrder

/-!
# Half-open ranges

A range holds the points from its start to before its stop. Two ranges are nested, disjoint or
partially overlapping; for ranges that hold a point, their ends tell which
(`nestedOrDisjoint_iff`).
-/

namespace Wire

/-- The points from `start` to before `stop`. -/
structure Range (α : Type) where
  start : α
  stop : α
  deriving DecidableEq, Repr

namespace Range

variable {α : Type} [LinearOrder α] {a b : Range α}

def points (r : Range α) : Set α := Set.Ico r.start r.stop

/-- Two ranges have no point in common. -/
def Apart (a b : Range α) : Prop := ∀ x, x ∈ a.points → x ∉ b.points

/-- One range lies in the other, or they have no point in common. -/
def NestedOrDisjoint (a b : Range α) : Prop :=
  a.points ⊆ b.points ∨ b.points ⊆ a.points ∨ a.Apart b

theorem Apart.symm (h : a.Apart b) : b.Apart a := fun x hb ha => h x ha hb

theorem NestedOrDisjoint.refl (a : Range α) : a.NestedOrDisjoint a := .inl fun _ h => h

theorem NestedOrDisjoint.symm (h : a.NestedOrDisjoint b) : b.NestedOrDisjoint a := by
  rcases h with hab | hba | hapart
  · exact .inr (.inl hab)
  · exact .inl hba
  · exact .inr (.inr hapart.symm)

/-- Ranges with a point are apart when one stops before the other starts. -/
theorem apart_iff (ha : a.start < a.stop) (hb : b.start < b.stop) :
    a.Apart b ↔ a.stop ≤ b.start ∨ b.stop ≤ a.start := by
  constructor
  · intro h
    by_contra hcross
    rw [not_or, not_le, not_le] at hcross
    exact h (max a.start b.start) ⟨le_max_left _ _, max_lt ha hcross.1⟩
      ⟨le_max_right _ _, max_lt hcross.2 hb⟩
  · rintro (h | h) x hxa hxb
    · exact absurd (hxa.2.trans_le h) (not_lt.mpr hxb.1)
    · exact absurd (hxb.2.trans_le h) (not_lt.mpr hxa.1)

theorem nestedOrDisjoint_iff (ha : a.start < a.stop) (hb : b.start < b.stop) :
    a.NestedOrDisjoint b ↔ (b.start ≤ a.start ∧ a.stop ≤ b.stop) ∨
      (a.start ≤ b.start ∧ b.stop ≤ a.stop) ∨ a.stop ≤ b.start ∨ b.stop ≤ a.start := by
  rw [NestedOrDisjoint, apart_iff ha hb, points, points, Set.Ico_subset_Ico_iff ha,
    Set.Ico_subset_Ico_iff hb]

end Range

end Wire
