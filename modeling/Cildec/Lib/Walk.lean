import Mathlib.Data.List.Chain
import Mathlib.Data.List.Nodup
import Mathlib.Logic.Relation

/-!
# Walks of a partial function

`walk next n a` follows `next` from `a` for at most `n` steps. With as many steps as there can
be different elements that have a successor, the walk reaches the end of every finite path,
and it repeats nothing exactly when no cycle can be reached (`walk_nodup_iff`).
-/

namespace Wire

variable {α : Type} (next : α → Option α)

/-- The elements after `a`, at most `n` of them. -/
def walk : Nat → α → List α
  | 0, _ => []
  | n + 1, a =>
      match next a with
      | none => []
      | some b => b :: walk n b

/-- `b` comes after `a`. -/
def Next (a b : α) : Prop := next a = some b

theorem walk_succ_of_some {n : Nat} {a b : α} (h : next a = some b) :
    walk next (n + 1) a = b :: walk next n b := by
  rw [walk, h]

theorem walk_succ_of_none {n : Nat} {a : α} (h : next a = none) : walk next (n + 1) a = [] := by
  rw [walk, h]

theorem walk_isChain (n : Nat) (a : α) : (a :: walk next n a).IsChain (Next next) := by
  induction n generalizing a with
  | zero => exact .singleton a
  | succ n ih =>
      cases h : next a with
      | none =>
          rw [walk_succ_of_none next h]
          exact .singleton a
      | some b =>
          rw [walk_succ_of_some next h]
          exact List.isChain_cons_cons.mpr ⟨h, ih b⟩

/-- A walk stops after `n` steps or where there is no other. -/
theorem exists_walk_last (n : Nat) (a : α) :
    ∃ pre last, a :: walk next n a = pre ++ [last] ∧ (∀ x ∈ pre, (next x).isSome) ∧
      (pre.length = n ∨ next last = none) := by
  induction n generalizing a with
  | zero => exact ⟨[], a, rfl, fun x hx => absurd hx List.not_mem_nil, .inl rfl⟩
  | succ n ih =>
      cases h : next a with
      | none =>
          rw [walk_succ_of_none next h]
          exact ⟨[], a, rfl, fun x hx => absurd hx List.not_mem_nil, .inr h⟩
      | some b =>
          obtain ⟨pre, last, heq, hsome, hend⟩ := ih b
          rw [walk_succ_of_some next h, heq]
          refine ⟨a :: pre, last, rfl, ?_, ?_⟩
          · exact List.forall_mem_cons.mpr ⟨by rw [h]; rfl, hsome⟩
          · exact hend.imp_left (congrArg (· + 1))

/-! ## Repetitions -/

section Path

variable {next} {pre post : List α} {x y : α}

/-- On a path that ends, what comes after an element is the next one on the path. -/
theorem Next.eq_cons (hpath : (pre ++ x :: post).IsChain (Next next))
    (hend : ∀ front last, pre ++ x :: post = front ++ [last] → next last = none)
    (hxy : Next next x y) : ∃ rest, post = y :: rest := by
  cases post with
  | nil =>
      have hnone := hend pre x rfl
      rw [Next, hnone] at hxy
      cases hxy
  | cons z rest =>
      have hxz : Next next x z := (List.isChain_cons_cons.mp hpath.right_of_append).1
      rw [Next] at hxy hxz
      rw [hxy] at hxz
      cases hxz
      exact ⟨rest, rfl⟩

/-- Whatever can be reached from an element of such a path stands behind it. -/
theorem Next.mem_of_trans (hpath : (pre ++ x :: post).IsChain (Next next))
    (hend : ∀ front last, pre ++ x :: post = front ++ [last] → next last = none)
    (hxy : Relation.TransGen (Next next) x y) : y ∈ post := by
  induction hxy with
  | single h =>
      obtain ⟨rest, rfl⟩ := Next.eq_cons hpath hend h
      exact List.mem_cons_self
  | tail _ h ih =>
      obtain ⟨p, q, rfl⟩ := List.append_of_mem ih
      have hsplit (q : List α) (b : α) : pre ++ x :: (p ++ b :: q) = (pre ++ x :: p) ++ b :: q := by
        rw [List.append_assoc, List.cons_append]
      rw [hsplit] at hpath hend
      obtain ⟨rest, rfl⟩ := Next.eq_cons hpath hend h
      exact List.mem_append_right _ (List.mem_cons_of_mem _ List.mem_cons_self)

end Path

/-- Where no more than `n` different elements have a successor, a walk of `n` steps repeats
nothing exactly when no element that can be reached can be reached again from itself. -/
theorem walk_nodup_iff {n : Nat} (a : α)
    (hfew : ∀ xs : List α, xs.Nodup → (∀ x ∈ xs, (next x).isSome) → xs.length ≤ n) :
    (a :: walk next n a).Nodup ↔
      ∀ b, Relation.ReflTransGen (Next next) a b → ¬ Relation.TransGen (Next next) b b := by
  have hpath := walk_isChain next n a
  constructor
  · intro hnodup b hab hcycle
    -- a walk that repeats nothing stops before its steps run out
    have hend : ∀ front last, a :: walk next n a = front ++ [last] → next last = none := by
      obtain ⟨pre, last, heq, hsome, hstop⟩ := exists_walk_last next n a
      have hnone : next last = none := by
        rcases hstop with hlen | hnone
        · by_contra hne
          -- one element too many that has a successor
          have hle := hfew (pre ++ [last]) (heq ▸ hnodup) (by
            intro x hx
            rcases List.mem_append.mp hx with hx | hx
            · exact hsome x hx
            · rw [List.mem_singleton.mp hx]
              exact Option.isSome_iff_ne_none.mpr hne)
          rw [List.length_append, hlen, List.length_singleton] at hle
          omega
        · exact hnone
      intro front last' heq'
      rw [heq] at heq'
      obtain ⟨_, rfl⟩ := List.append_inj' heq' rfl |>.imp id fun h => List.cons.inj h |>.1
      exact hnone
    have hmem : b ∈ a :: walk next n a := by
      rcases Relation.reflTransGen_iff_eq_or_transGen.mp hab with rfl | htrans
      · exact List.mem_cons_self
      · have hpath' : ([] ++ a :: walk next n a).IsChain (Next next) := hpath
        exact List.mem_cons_of_mem _ (Next.mem_of_trans hpath' hend htrans)
    obtain ⟨pre, post, heq⟩ := List.append_of_mem hmem
    rw [heq] at hpath hend hnodup
    have hagain := Next.mem_of_trans hpath hend hcycle
    exact (List.nodup_cons.mp hnodup.of_append_right).1 hagain
  · intro hacyclic
    have htrans : (a :: walk next n a).IsChain (Relation.TransGen (Next next)) :=
      hpath.imp fun _ _ h => .single h
    have hpairs := htrans.pairwise
    refine List.Pairwise.imp_of_mem ?_ hpairs
    rintro x y hx _ hxy rfl
    refine hacyclic x ?_ hxy
    rcases List.mem_cons.mp hx with rfl | hx
    · exact .refl
    · exact (List.rel_of_pairwise_cons hpairs hx).to_reflTransGen

end Wire
