import Mathlib.Data.List.Basic
import Mathlib.Order.Basic

/-!
# Consecutive intervals

Boundaries `b first ≤ b (first + 1) ≤ …` cut the numbers from the first to the last of
them into half-open intervals: every number lies in exactly one (`exists_interval`,
`interval_unique`), and the intervals in order list the numbers in order
(`flatMap_intervals`).
-/

namespace Wire

/-- The `n` intervals from `first` on have boundaries in order. -/
def Boundaries (b : Nat → Nat) (first n : Nat) : Prop :=
  ∀ i, first ≤ i → i < first + n → b i ≤ b (i + 1)

namespace Boundaries

variable {b : Nat → Nat} {first n i j m : Nat}

theorem mono (hb : Boundaries b first n) (hi : first ≤ i) (hij : i ≤ j) (hj : j ≤ first + n) :
    b i ≤ b j := by
  induction hij with
  | refl => exact Nat.le_refl _
  | @step k hik ih =>
      have hik' : i ≤ k := hik
      have step := hb k (by omega) (by omega)
      have before := ih (by omega)
      exact Nat.le_trans before step

theorem tail (hb : Boundaries b first (n + 1)) : Boundaries b (first + 1) n := by
  intro i hi hlt
  exact hb i (by omega) (by omega)

/-- A number between the first and the last boundary lies in an interval. -/
theorem exists_interval (hb : Boundaries b first n) (hlo : b first ≤ m)
    (hhi : m < b (first + n)) :
    ∃ i, first ≤ i ∧ i < first + n ∧ b i ≤ m ∧ m < b (i + 1) := by
  induction n generalizing first with
  | zero => exact absurd hhi (Nat.not_lt.mpr hlo)
  | succ n ih =>
      by_cases hm : m < b (first + 1)
      · exact ⟨first, Nat.le_refl _, by omega, hlo, hm⟩
      · have hhi' : m < b (first + 1 + n) := by
          rw [show first + 1 + n = first + (n + 1) by omega]
          exact hhi
        obtain ⟨i, h1, h2, h3, h4⟩ := ih hb.tail (Nat.not_lt.mp hm) hhi'
        exact ⟨i, by omega, by omega, h3, h4⟩

/-- Two intervals that share a number are the same one. -/
theorem interval_unique (hb : Boundaries b first n) (hi : first ≤ i) (hi' : i < first + n)
    (hj : first ≤ j) (hj' : j < first + n) (him : b i ≤ m) (him' : m < b (i + 1))
    (hjm : b j ≤ m) (hjm' : m < b (j + 1)) : i = j := by
  rcases Nat.lt_trichotomy i j with hlt | heq | hgt
  · have hmono := hb.mono (i := i + 1) (j := j) (by omega) hlt (by omega)
    omega
  · exact heq
  · have hmono := hb.mono (i := j + 1) (j := i) (by omega) hgt (by omega)
    omega

/-- The intervals, one after another, are the numbers in order. -/
theorem flatMap_intervals (hb : Boundaries b first n) :
    (List.range' first n).flatMap (fun i => List.range' (b i) (b (i + 1) - b i)) =
      List.range' (b first) (b (first + n) - b first) := by
  induction n generalizing first with
  | zero => simp
  | succ n ih =>
      have step := hb first (Nat.le_refl _) (by omega)
      have rest := hb.mono (i := first + 1) (j := first + (n + 1)) (by omega) (by omega)
        (Nat.le_refl _)
      have htail := ih hb.tail
      rw [show first + 1 + n = first + (n + 1) by omega] at htail
      rw [List.range'_succ, List.flatMap_cons, htail]
      have happ := List.range'_append_1 (s := b first) (m := b (first + 1) - b first)
        (n := b (first + (n + 1)) - b (first + 1))
      rw [show b first + (b (first + 1) - b first) = b (first + 1) by omega,
        show b (first + 1) - b first + (b (first + (n + 1)) - b (first + 1)) =
          b (first + (n + 1)) - b first by omega] at happ
      exact happ

end Boundaries

end Wire
