import Mathlib.Data.List.Basic
import Mathlib.Order.Lattice

/-!
# Searching an ordered range

`Bracket` is the invariant of a lower-bound search over `first..last`: everything
before `lo` is below the key and nothing from `hi` on is. In a range ordered by `f` the
positions that equal the key are the run that starts at the lower bound
(`filter_range'_eq_takeWhile`).
-/

namespace Wire

/-- `lo..hi` still holds the first position of `first..last` that is not `below`. -/
structure Bracket (below : Nat → Prop) (first last lo hi : Nat) : Prop where
  first_le : first ≤ lo
  lo_le : lo ≤ hi
  hi_le : hi ≤ last
  below_lo : ∀ j, first ≤ j → j < lo → below j
  above_hi : ∀ j, hi ≤ j → j < last → ¬ below j

namespace Bracket

variable {below : Nat → Prop} {first last lo hi mid : Nat}

theorem init (h : first ≤ last) : Bracket below first last first last where
  first_le := Nat.le_refl _
  lo_le := h
  hi_le := Nat.le_refl _
  below_lo _ h1 h2 := absurd h1 (Nat.not_le.mpr h2)
  above_hi _ h1 h2 := absurd h1 (Nat.not_le.mpr h2)

/-- A position below the key moves the lower end past it. -/
theorem raise (hb : Bracket below first last lo hi)
    (hdown : ∀ i j, first ≤ i → i ≤ j → j < last → below j → below i)
    (hlo : lo ≤ mid) (hhi : mid < hi) (hmid : below mid) :
    Bracket below first last (mid + 1) hi where
  first_le := by have := hb.first_le; omega
  lo_le := hhi
  hi_le := hb.hi_le
  below_lo j h1 h2 := by
    have := hb.hi_le
    exact hdown j mid h1 (by omega) (by omega) hmid
  above_hi := hb.above_hi

/-- A position that is not below the key moves the upper end to it. -/
theorem lower (hb : Bracket below first last lo hi)
    (hdown : ∀ i j, first ≤ i → i ≤ j → j < last → below j → below i)
    (hlo : lo ≤ mid) (hhi : mid < hi) (hmid : ¬ below mid) :
    Bracket below first last lo mid where
  first_le := hb.first_le
  lo_le := hlo
  hi_le := by have := hb.hi_le; omega
  below_lo := hb.below_lo
  above_hi j h1 h2 hj := by
    have := hb.first_le
    exact hmid (hdown mid j (by omega) h1 h2 hj)

end Bracket

variable {α β : Type} [LinearOrder β]

/-- In a list ordered by `f` whose values are at least `key`, the values equal to `key`
come first. -/
theorem filter_eq_takeWhile {f : α → β} {key : β} {xs : List α}
    (hsorted : (xs.map f).Pairwise (· ≤ ·)) (hge : ∀ x ∈ xs, key ≤ f x) :
    xs.filter (fun x => f x = key) = xs.takeWhile (fun x => f x = key) := by
  induction xs with
  | nil => rfl
  | cons x xs ih =>
      rw [List.map_cons, List.pairwise_cons] at hsorted
      have htail := ih hsorted.2 fun y hy => hge y (List.mem_cons_of_mem _ hy)
      by_cases hx : f x = key
      · simp [hx, htail]
      · have hlt : key < f x := lt_of_le_of_ne (hge x List.mem_cons_self) (Ne.symm hx)
        have hnone : xs.filter (fun y => f y = key) = [] := by
          rw [List.filter_eq_nil_iff]
          intro y hy
          have hle := hsorted.1 (f y) (List.mem_map_of_mem hy)
          simpa using (lt_of_lt_of_le hlt hle).ne'
        simp [hx, hnone]

/-- The positions of `first..last` that hold `key` are a run from its lower bound on. -/
theorem filter_range'_eq_takeWhile {f : Nat → β} {key : β} {first n p : Nat}
    (hsorted : ((List.range' first n).map f).Pairwise (· ≤ ·))
    (hb : Bracket (fun j => f j < key) first (first + n) p p) :
    (List.range' first n).filter (fun j => f j = key) =
      (List.range' p (first + n - p)).takeWhile (fun j => f j = key) := by
  have hlo := hb.first_le
  have hhi := hb.hi_le
  have hsplit : List.range' first n =
      List.range' first (p - first) ++ List.range' p (first + n - p) := by
    have happ := List.range'_append_1 (s := first) (m := p - first) (n := first + n - p)
    rw [show first + (p - first) = p by omega, show p - first + (first + n - p) = n by omega]
      at happ
    exact happ.symm
  have hnone : (List.range' first (p - first)).filter (fun j => f j = key) = [] := by
    rw [List.filter_eq_nil_iff]
    intro j hj
    rw [List.mem_range'_1] at hj
    have hlt := hb.below_lo j hj.1 (by omega)
    simpa using hlt.ne
  rw [hsplit, List.map_append, List.pairwise_append] at hsorted
  rw [hsplit, List.filter_append, hnone, List.nil_append]
  refine filter_eq_takeWhile hsorted.2.1 fun j hj => ?_
  rw [List.mem_range'_1] at hj
  exact not_lt.mp (hb.above_hi j hj.1 (by omega))

/-! ## The first of a list -/

/-- Where no two members satisfy `p`, the first that does is any that does. -/
theorem find?_of_pairwise {p : α → Bool} {xs : List α} {x : α}
    (hpairwise : xs.Pairwise fun a b => ¬ (p a = true ∧ p b = true)) (hx : x ∈ xs)
    (hp : p x = true) : xs.find? p = some x := by
  induction xs with
  | nil => cases hx
  | cons a as ih =>
      obtain ⟨hhead, htail⟩ := List.pairwise_cons.mp hpairwise
      rcases List.mem_cons.mp hx with rfl | hmem
      · rw [List.find?_cons_of_pos hp]
      · have hnot : ¬ p a = true := fun ha => hhead x hmem ⟨ha, hp⟩
        rw [List.find?_cons_of_neg hnot, ih htail hmem]

end Wire
