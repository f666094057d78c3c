import Cildec.Lib.Run

/-!
# How a run ends

`Exits P E Q x` is a triple with two postconditions: from a state of `P` the computation `x`
returns a result and a state of `Q`, or it fails with an error of `E`. The rules follow the
shape of the program.

* `Exits.bind`, `Exits.get_keep`, `Exits.repeatM`: the composition rules;
* `Exits.of_pre`: what holds in every state of `P` may be used.
-/

namespace Wire

variable {ε σ α β : Type}

/-- A loop fails where one of its rounds does. -/
theorem exists_of_mapM_error {f : α → Except ε β} {xs : List α} {e : ε}
    (h : xs.mapM f = .error e) : ∃ x ∈ xs, f x = .error e := by
  induction xs with
  | nil => cases h
  | cons x xs ih =>
      rw [List.mapM_cons] at h
      cases hx : f x with
      | error e' =>
          rw [hx] at h
          cases h
          exact ⟨x, List.mem_cons_self, hx⟩
      | ok b =>
          cases htail : xs.mapM f with
          | error e' =>
              rw [hx, htail] at h
              cases h
              obtain ⟨y, hy, herror⟩ := ih htail
              exact ⟨y, List.mem_cons_of_mem x hy, herror⟩
          | ok bs =>
              rw [hx, htail] at h
              cases h

/-- From a state of `P`, `x` ends well in `Q` or fails with an error of `E`. -/
structure Exits (P : σ → Prop) (E : ε → Prop) (Q : α → σ → Prop) (x : EStateM ε σ α) : Prop where
  ok : ∀ s a s', P s → x.run s = .ok a s' → Q a s'
  error : ∀ s e s', P s → x.run s = .error e s' → E e

namespace Exits

variable {P P' : σ → Prop} {E : ε → Prop} {Q Q' : α → σ → Prop} {R : β → σ → Prop}
  {x y : EStateM ε σ α} {f : α → EStateM ε σ β}

theorem of_pre (h : ∀ s, P s → Exits P E Q x) : Exits P E Q x where
  ok s a s' hs hrun := (h s hs).ok s a s' hs hrun
  error s e s' hs hrun := (h s hs).error s e s' hs hrun

theorem mono (h : Exits P E Q x) (hP : ∀ s, P' s → P s) (hQ : ∀ a s, Q a s → Q' a s) :
    Exits P' E Q' x where
  ok s a s' hs hrun := hQ a s' (h.ok s a s' (hP s hs) hrun)
  error s e s' hs hrun := h.error s e s' (hP s hs) hrun

theorem pure {a : α} (h : ∀ s, P s → Q a s) : Exits P E Q (Pure.pure a : EStateM ε σ α) where
  ok s b s' hs hrun := by
    cases hrun
    exact h s hs
  error s e s' _ hrun := by cases hrun

theorem throw {e : ε} (h : E e) : Exits P E Q (throw e : EStateM ε σ α) where
  ok s a s' _ hrun := by cases hrun
  error s e' s' _ hrun := by
    cases hrun
    exact h

/-- Either half may fail; the second one starts where the first one ended well. -/
theorem bind (hx : Exits P E Q x) (hf : ∀ a, Exits (Q a) E R (f a)) : Exits P E R (x >>= f) where
  ok s b s'' hs hrun := by
    obtain ⟨a, s', ha, hb⟩ := run_bind_ok_iff.mp hrun
    exact (hf a).ok s' b s'' (hx.ok s a s' hs ha) hb
  error s e s'' hs hrun := by
    cases hfirst : x.run s with
    | ok a s' =>
        rw [run_bind_of_ok hfirst] at hrun
        exact (hf a).error s' e s'' (hx.ok s a s' hs hfirst) hrun
    | error e' s' =>
        rw [run_bind_of_error hfirst] at hrun
        cases hrun
        exact hx.error s e s'' hs hfirst

/-- A look at the state: what holds of it may be used for the rest. -/
theorem get_bind {f : σ → EStateM ε σ α} (hf : ∀ s, P s → Exits (fun s' => s' = s) E Q (f s)) :
    Exits P E Q (get >>= f) where
  ok s a s' hs hrun := (hf s hs).ok s a s' rfl hrun
  error s e s' hs hrun := (hf s hs).error s e s' rfl hrun

/-- A look at the state that is only used for what `P` says of it. -/
theorem get_keep {f : σ → EStateM ε σ α} (hf : ∀ s, P s → Exits P E Q (f s)) :
    Exits P E Q (get >>= f) :=
  get_bind fun s hs => (hf s hs).mono (fun _ heq => heq ▸ hs) fun _ _ h => h

theorem set {s : σ} {Q : PUnit → σ → Prop} (h : Q ⟨⟩ s) :
    Exits P E Q (set s : EStateM ε σ PUnit) where
  ok _ _ s' _ hrun := by
    cases hrun
    exact h
  error _ e s' _ hrun := by cases hrun

theorem modify {g : σ → σ} {Q : PUnit → σ → Prop} (h : ∀ s, P s → Q ⟨⟩ (g s)) :
    Exits P E Q (modify g : EStateM ε σ PUnit) where
  ok s _ s' hs hrun := by
    cases hrun
    exact h s hs
  error s e s' _ hrun := by cases hrun

theorem ite {c : Prop} [Decidable c] (hx : c → Exits P E Q x) (hy : ¬ c → Exits P E Q y) :
    Exits P E Q (if c then x else y) := by
  by_cases h : c
  · rw [if_pos h]
    exact hx h
  · rw [if_neg h]
    exact hy h

theorem ofExcept {x : Except ε α} (hok : ∀ a, x = .ok a → ∀ s, P s → Q a s)
    (herror : ∀ e, x = .error e → E e) : Exits P E Q (Wire.ofExcept x) := by
  cases x with
  | ok a => exact pure (hok a rfl)
  | error e => exact throw (herror e rfl)

theorem orFail {value : Option α} {e : ε} (hok : ∀ a, value = some a → ∀ s, P s → Q a s)
    (herror : value = none → E e) : Exits P E Q (Wire.orFail value e) := by
  cases value with
  | some a => exact pure (hok a rfl)
  | none => exact throw (herror rfl)

theorem check {c : Prop} [Decidable c] {e : ε} (h : ¬ c → E e) :
    Exits P E (fun _ s => c ∧ P s) (Wire.check c e) := by
  refine ite (fun hc => pure fun s hs => ⟨hc, hs⟩) fun hc => ?_
  exact throw (h hc)

/-- A loop keeps what each round keeps. -/
theorem repeatM (h : Exits P E (fun _ => P) x) : ∀ n, Exits P E (fun _ => P) (Wire.repeatM x n)
  | 0 => pure fun _ hs => hs
  | n + 1 => h.bind fun _ => (repeatM h n).bind fun _ => pure fun _ hs => hs

end Exits

end Wire
