import Cildec.Lib.Run

/-!
# Programs that commute with an action

A program that is handed a log and only appends to it does the same whatever the log holds:
it commutes with putting entries in front. `Commutes act act' f` says so of any action on what
a program takes and an action on what it returns; the rules follow the shape of the program.
-/

namespace Wire

variable {δ α β γ κ ε σ : Type}

section Monad

variable {m : Type → Type} [Monad m] [LawfulMonad m] {act : δ → α → α} {act' : δ → β → β}
  {act'' : δ → γ → γ}

/-- Acting on the argument of `f` is acting on its result. -/
def Commutes (act : δ → α → α) (act' : δ → β → β) (f : α → m β) : Prop :=
  ∀ d a, f (act d a) = act' d <$> f a

theorem Commutes.pure {f : α → β} (h : ∀ d a, f (act d a) = act' d (f a)) :
    Commutes act act' (fun a => (Pure.pure (f a) : m β)) := by
  intro d a
  show Pure.pure (f (act d a)) = act' d <$> Pure.pure (f a)
  rw [h, map_pure]

/-- Sequencing. -/
theorem Commutes.comp {f : α → m β} {g : β → m γ} (hf : Commutes act act' f)
    (hg : Commutes act' act'' g) : Commutes act act'' (fun a => f a >>= g) := by
  intro d a
  show f (act d a) >>= g = act'' d <$> (f a >>= g)
  rw [hf, bind_map_left, map_bind]
  exact bind_congr fun b => hg d b

/-- Sequencing after a step that does not depend on the argument. -/
theorem Commutes.after (x : m κ) {f : κ → α → m β} (hf : ∀ c, Commutes act act' (f c)) :
    Commutes act act' (fun a => x >>= fun c => f c a) := by
  intro d a
  show (x >>= fun c => f c (act d a)) = act' d <$> (x >>= fun c => f c a)
  rw [map_bind]
  exact bind_congr fun c => hf c d a

omit [LawfulMonad m] in
theorem Commutes.ite {c : Prop} [Decidable c] {f g : α → m β} (hf : Commutes act act' f)
    (hg : Commutes act act' g) : Commutes act act' (fun a => if c then f a else g a) := by
  intro d a
  split
  · exact hf d a
  · exact hg d a

end Monad

section Except

variable {act : δ → α → α} {act' : δ → β → β} {f : α → Except ε β}

theorem Commutes.error (e : ε) : Commutes act act' (fun _ => (.error e : Except ε β)) :=
  fun _ _ => rfl

theorem Commutes.ok {f : α → β} (h : ∀ d a, f (act d a) = act' d (f a)) :
    Commutes act act' (fun a => (.ok (f a) : Except ε β)) := Commutes.pure h

/-- Whatever acts on the argument, the result is there or not. -/
theorem Commutes.ok_iff (hf : Commutes act act' f) {d : δ} {a : α} {b : β} :
    f (act d a) = .ok b ↔ ∃ b', f a = .ok b' ∧ b = act' d b' := by
  rw [hf]
  cases f a with
  | error e =>
      constructor
      · intro h
        cases h
      · rintro ⟨b', h, _⟩
        cases h
  | ok b' =>
      constructor
      · intro h
        cases h
        exact ⟨b', rfl, rfl⟩
      · rintro ⟨b'', h, rfl⟩
        cases h
        rfl

end Except

section EStateM

variable {act : δ → α → α} {act' : δ → β → β} {f : α → EStateM ε σ β}

theorem Commutes.throw (e : ε) :
    Commutes act act' (fun _ => (MonadExcept.throw e : EStateM ε σ β)) :=
  fun _ _ => rfl

theorem Commutes.ofExcept {f : α → Except ε β} (hf : Commutes act act' f) :
    Commutes act act' (fun a => (Wire.ofExcept (f a) : EStateM ε σ β)) := by
  intro d a
  show Wire.ofExcept (f (act d a)) = act' d <$> Wire.ofExcept (f a)
  rw [hf]
  cases f a with
  | error e => rfl
  | ok b => rfl

theorem Commutes.run_ok_iff (hf : Commutes act act' f) {d : δ} {a : α} {b : β} {s s' : σ} :
    (f (act d a)).run s = .ok b s' ↔ ∃ b', (f a).run s = .ok b' s' ∧ b = act' d b' := by
  rw [hf, ← bind_pure_comp, run_bind_ok_iff]
  constructor
  · rintro ⟨b', t, hrun, hpure⟩
    cases hpure
    exact ⟨b', hrun, rfl⟩
  · rintro ⟨b', hrun, rfl⟩
    exact ⟨b', s', hrun, rfl⟩

theorem Commutes.run_error (hf : Commutes act act' f) {d : δ} {a : α} {e : ε} {s s' : σ}
    (hrun : (f a).run s = .error e s') : (f (act d a)).run s = .error e s' := by
  rw [hf, ← bind_pure_comp, run_bind_of_error hrun]

end EStateM

end Wire
