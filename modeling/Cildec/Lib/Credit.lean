import Cildec.Lib.Logged
import Mathlib.Algebra.BigOperators.Group.List.Basic
import Mathlib.Algebra.Ring.Nat

/-!
# Events paid for with bytes

A computation over a cursor that logs events of some weight. Every byte it reads is a credit,
and `Pays c d x` says that credits cover the weight: with `c` in hand and the unread bytes to
come, `x` pays for all it logs and is left with `d` of its result. The rules follow the shape
of the program, as those of an amortised analysis do.
-/

namespace Wire

variable {ε σ ι α β : Type} [Cursor σ] {weight : ι → Nat}

/-- The weight of a list of events. -/
def totalWeight (weight : ι → Nat) (events : List ι) : Nat := (events.map weight).sum

@[simp] theorem totalWeight_nil : totalWeight weight [] = 0 := rfl

@[simp] theorem totalWeight_append (xs ys : List ι) :
    totalWeight weight (xs ++ ys) = totalWeight weight xs + totalWeight weight ys := by
  rw [totalWeight, List.map_append, List.sum_append]
  rfl

/-- With `c` credits and one for each unread byte, `x` pays for its events. Where it succeeds,
the credits that its result promises are left beside the bytes that are. -/
structure Pays (weight : ι → Nat) (c : Nat) (d : α → Nat) (x : Logged ε σ ι α) : Prop where
  ok : ∀ s a s' events, x s = (.ok a s', events) →
    d a + totalWeight weight events + (rest s').length ≤ c + (rest s).length
  error : ∀ s e s' events, x s = (.error e s', events) →
    totalWeight weight events ≤ c + (rest s).length

namespace Pays

variable {c : Nat} {d : α → Nat} {e : β → Nat} {x : Logged ε σ ι α} {f : α → Logged ε σ ι β}

theorem pure {a : α} (h : d a ≤ c) : Pays weight c d (Pure.pure a : Logged ε σ ι α) where
  ok s b s' events hrun := by
    cases hrun
    exact Nat.add_le_add_right h _
  error s e s' events hrun := by cases hrun

/-- The bytes a silent step reads are credits. -/
theorem silent {p : EStateM ε σ α} {R : List UInt8 → α → Prop} (hp : Reads p R)
    (h : ∀ bs a, R bs a → d a ≤ c + bs.length) : Pays weight c d (Logged.silent p) where
  ok s a s' events hrun := by
    obtain ⟨hrun, hevents⟩ := Prod.mk.inj hrun
    obtain ⟨bs, hrest, _, hR⟩ := hp s a s' hrun
    have hlen := congrArg List.length hrest
    rw [List.length_append] at hlen
    have hd := h bs a hR
    rw [← hevents, totalWeight_nil]
    omega
  error s e s' events hrun := by
    rw [← (Prod.mk.inj hrun).2, totalWeight_nil]
    exact Nat.zero_le _

/-- A value that reads nothing. -/
theorem silent_ofExcept (x : Except ε α) :
    Pays weight c (fun _ => c) (Logged.silent (Wire.ofExcept x : EStateM ε σ α)) :=
  silent (Reads.ofExcept x) fun bs _ _ => Nat.le_add_right c bs.length

theorem get : Pays weight c (fun _ => c) (Logged.silent MonadState.get : Logged ε σ ι σ) where
  ok s a s' events hrun := by
    cases hrun
    exact le_rfl
  error s e s' events hrun := by cases hrun

/-- An event that the credits in hand cover. -/
theorem log {event : ι} {d : Unit → Nat} (h : d () + weight event ≤ c) :
    Pays weight c d (Logged.log fun _ => event : Logged ε σ ι Unit) where
  ok s a s' events hrun := by
    cases hrun
    have hsum : totalWeight weight [event] = weight event := by simp [totalWeight]
    rw [hsum]
    exact Nat.add_le_add_right h _
  error s e s' events hrun := by cases hrun

/-- The second step is handed what the first has left. -/
theorem bind (hx : Pays weight c d x) (hf : ∀ a, Pays weight (d a) e (f a)) :
    Pays weight c e (x >>= f) where
  ok s b s'' events hrun := by
    rcases hxs : x s with ⟨⟨a, s'⟩ | ⟨err, s'⟩, first⟩
    · rw [Logged.bind_of_ok hxs] at hrun
      obtain ⟨hsecond, rfl⟩ := Prod.mk.inj hrun
      have hhead := hx.ok s a s' first hxs
      have htail := (hf a).ok s' b s'' (f a s').2 (Prod.ext hsecond rfl)
      rw [totalWeight_append]
      omega
    · rw [Logged.bind_of_error hxs] at hrun
      cases hrun
  error s err s'' events hrun := by
    rcases hxs : x s with ⟨⟨a, s'⟩ | ⟨err', s'⟩, first⟩
    · rw [Logged.bind_of_ok hxs] at hrun
      obtain ⟨hsecond, rfl⟩ := Prod.mk.inj hrun
      have hhead := hx.ok s a s' first hxs
      have htail := (hf a).error s' err s'' (f a s').2 (Prod.ext hsecond rfl)
      rw [totalWeight_append]
      omega
    · rw [Logged.bind_of_error hxs] at hrun
      cases hrun
      exact hx.error s err s'' events hxs

theorem ite {p : Prop} [Decidable p] {y : Logged ε σ ι α} (hx : p → Pays weight c d x)
    (hy : ¬ p → Pays weight c d y) : Pays weight c d (if p then x else y) := by
  by_cases hp : p
  · rw [if_pos hp]
    exact hx hp
  · rw [if_neg hp]
    exact hy hp

end Pays

end Wire
