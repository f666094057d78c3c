import Mathlib.Data.List.Basic

/-!
# Sub-slices of a list

`slice? xs start stop` is `xs.get(start..stop)` of a slice type: the range must be
increasing and inside the list. `AgreeTo n xs ys` says that the first `n` elements of two
lists are the same ones.
-/

namespace Wire

variable {α : Type}

/-- The elements `start..stop` of a list, when the range lies inside it. -/
def slice? (xs : List α) (start stop : Nat) : Option (List α) :=
  if start ≤ stop ∧ stop ≤ xs.length then some ((xs.drop start).take (stop - start)) else none

theorem slice?_eq_some_iff {xs ys : List α} {start stop : Nat} :
    slice? xs start stop = some ys ↔
      (start ≤ stop ∧ stop ≤ xs.length) ∧ ys = (xs.drop start).take (stop - start) := by
  unfold slice?
  by_cases h : start ≤ stop ∧ stop ≤ xs.length
  · rw [if_pos h]
    constructor
    · intro hys
      exact ⟨h, (Option.some.inj hys).symm⟩
    · rintro ⟨_, rfl⟩
      rfl
  · rw [if_neg h]
    constructor
    · intro hys
      cases hys
    · rintro ⟨h', _⟩
      exact absurd h' h

theorem slice?_of_le {xs : List α} {start len : Nat} (h : start + len ≤ xs.length) :
    slice? xs start (start + len) = some ((xs.drop start).take len) := by
  rw [slice?_eq_some_iff]
  exact ⟨⟨by omega, h⟩, by rw [Nat.add_sub_cancel_left]⟩

theorem slice?_isSome_iff {xs : List α} {start stop : Nat} :
    (slice? xs start stop).isSome ↔ start ≤ stop ∧ stop ≤ xs.length := by
  unfold slice?
  split <;> simp_all

theorem length_of_slice? {xs ys : List α} {start stop : Nat}
    (h : slice? xs start stop = some ys) : ys.length = stop - start := by
  obtain ⟨⟨_, hstop⟩, rfl⟩ := slice?_eq_some_iff.mp h
  rw [List.length_take, List.length_drop]
  omega

/-- The slice that starts after `pre` and is as long as `mid` is `mid`. -/
theorem slice?_append (pre mid post : List α) :
    slice? (pre ++ (mid ++ post)) pre.length (pre.length + mid.length) = some mid := by
  rw [slice?_of_le (by simp), List.drop_left, List.take_left]

/-- The elements after a first block, up to the length of a second, are the second. -/
theorem take_drop_append {pre mid post : List α} {n m : Nat} (hpre : pre.length = n)
    (hmid : mid.length = m) : ((pre ++ (mid ++ post)).drop n).take m = mid := by
  rw [List.drop_left' hpre, List.take_left' hmid]

/-- Two lists have `n` elements at least, and the first `n` are the same. -/
structure AgreeTo (n : Nat) (xs ys : List α) : Prop where
  left : n ≤ xs.length
  right : n ≤ ys.length
  same : xs.take n = ys.take n

namespace AgreeTo

variable {n m : Nat} {xs ys : List α}

/-- A list, and its first elements followed by others. -/
theorem take_append (h : n ≤ xs.length) (tl : List α) : AgreeTo n xs (xs.take n ++ tl) := by
  have hlen : (xs.take n).length = n := List.length_take_of_le h
  exact ⟨h, by rw [List.length_append, hlen]; omega, (List.take_left' hlen).symm⟩

theorem mono (h : AgreeTo n xs ys) (hm : m ≤ n) : AgreeTo m xs ys := by
  refine ⟨Nat.le_trans hm h.left, Nat.le_trans hm h.right, ?_⟩
  have hsame := congrArg (List.take m) h.same
  rwa [List.take_take, List.take_take, Nat.min_eq_left hm] at hsame

/-- A range before the `n`-th element holds the same elements. -/
theorem slice (h : AgreeTo n xs ys) {i k : Nat} (hik : i + k ≤ n) :
    (xs.drop i).take k = (ys.drop i).take k := by
  have hsame := (h.mono hik).same
  rw [List.take_drop, List.take_drop, hsame]

theorem head {x : α} (h : AgreeTo n (x :: xs) ys) (hn : 0 < n) : ∃ tl, ys = x :: tl := by
  have hhead := (h.mono hn).same
  cases ys with
  | nil => cases hhead
  | cons y tl =>
      cases hhead
      exact ⟨tl, rfl⟩

end AgreeTo

end Wire
