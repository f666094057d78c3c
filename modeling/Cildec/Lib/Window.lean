import Cildec.Lib.Slice

/-!
# Windows into a list

`Window whole start part` says that `part` is what `whole` holds from `start` on; an empty
part is a window wherever it is said to start. A window into a window is one into the whole
(`Window.trans`), so a chain of slices is followed back to the list it comes from.
-/

namespace Wire

variable {α : Type} {whole mid part : List α} {start offset n : Nat}

/-- `part` stands in `whole` from `start` on, unless it is empty. -/
def Window (whole : List α) (start : Nat) (part : List α) : Prop :=
  part = [] ∨ (whole.drop start).take part.length = part

namespace Window

theorem nil (whole : List α) (start : Nat) : Window whole start [] := .inl rfl

theorem take_drop (whole : List α) (start n : Nat) :
    Window whole start ((whole.drop start).take n) := by
  right
  rw [List.length_take]
  rcases Nat.le_total n (whole.drop start).length with h | h
  · rw [Nat.min_eq_left h]
  · rw [Nat.min_eq_right h, List.take_length, List.take_of_length_le h]

theorem of_slice? {stop : Nat} (h : slice? whole start stop = some part) :
    Window whole start part := by
  obtain ⟨_, rfl⟩ := slice?_eq_some_iff.mp h
  exact take_drop whole start _

/-- A window that is not empty ends in the list. -/
theorem ends (h : Window whole start part) (hne : part ≠ []) :
    start + part.length ≤ whole.length := by
  rcases h with hnil | htake
  · exact absurd hnil hne
  · have hlen := congrArg List.length htake
    have hpos : 0 < part.length := List.length_pos_iff.mpr hne
    rw [List.length_take, List.length_drop] at hlen
    omega

/-- A window into a window. -/
theorem trans (h : Window whole start mid) (h' : Window mid offset part) :
    Window whole (start + offset) part := by
  rcases h' with rfl | hpart
  · exact nil whole _
  · rcases h with rfl | hmid
    · left
      rw [← hpart, List.drop_nil, List.take_nil]
    · right
      by_cases hempty : part = []
      · rw [hempty]
        exact List.take_zero
      have hends : offset + part.length ≤ mid.length := ends (.inr hpart) hempty
      rw [← List.drop_drop]
      conv_rhs => rw [← hpart, ← hmid]
      rw [List.drop_take, List.take_take, Nat.min_eq_left (by omega)]

/-- The first elements of a window. -/
theorem take (h : Window whole start part) (n : Nat) : Window whole start (part.take n) := by
  have h' : Window part 0 (part.take n) := take_drop part 0 n
  exact h.trans h'

end Window

end Wire
