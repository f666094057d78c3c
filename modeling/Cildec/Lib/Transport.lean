import Cildec.Lib.Run

/-!
# Two runs that differ by a transport

A program that only adds a parameter to the positions it reports does the same for every value
of it. `Transports f g h p q` says that from the state `f s` the program `q` does what `p` does
from `s`: `f`, `g` and `h` carry the state, the error and the result over. `Carries` says the
same without a state. The rules follow the shape of the two programs.
-/

namespace Wire

variable {ε σ α α' β β' : Type}

/-- An outcome carried over. -/
def carry (g : ε → ε) (h : α → β) : Except ε α → Except ε β
  | .ok a => .ok (h a)
  | .error e => .error (g e)

/-- The outcome of a run carried over. -/
def carryRun (f : σ → σ) (g : ε → ε) (h : α → β) : EStateM.Result ε σ α → EStateM.Result ε σ β
  | .ok a s => .ok (h a) (f s)
  | .error e s => .error (g e) (f s)

/-- `y` is what `x` is, carried over. -/
def Carries (g : ε → ε) (h : α → β) (x : Except ε α) (y : Except ε β) : Prop := y = carry g h x

/-- From `f s`, `q` does what `p` does from `s`. -/
def Transports (f : σ → σ) (g : ε → ε) (h : α → β) (p : EStateM ε σ α) (q : EStateM ε σ β) : Prop :=
  ∀ s, q.run (f s) = carryRun f g h (p.run s)

variable {f : σ → σ} {g : ε → ε} {h : α → β} {h' : α' → β'}

/-! ## Without a state -/

theorem Carries.ok (a : α) : Carries g h (.ok a) (.ok (h a)) := rfl

theorem Carries.error (e : ε) : Carries g h (.error e) (.error (g e)) := rfl

/-- The second half only has to carry over what the first half gives. -/
theorem Carries.bind {x : Except ε α} {y : Except ε β} {k : α → Except ε α'}
    {l : β → Except ε β'} (hx : Carries g h x y)
    (hk : ∀ a, x = .ok a → Carries g h' (k a) (l (h a))) : Carries g h' (x >>= k) (y >>= l) := by
  obtain rfl : y = carry g h x := hx
  cases x with
  | error e => rfl
  | ok a => exact hk a rfl

theorem Carries.ite {c : Prop} [Decidable c] {x x' : Except ε α} {y y' : Except ε β}
    (hx : c → Carries g h x y) (hx' : ¬c → Carries g h x' y') :
    Carries g h (if c then x else x') (if c then y else y') := by
  by_cases hc : c
  · rw [if_pos hc, if_pos hc]
    exact hx hc
  · rw [if_neg hc, if_neg hc]
    exact hx' hc

/-! ## With a state -/

theorem Transports.pure (a : α) :
    Transports f g h (Pure.pure a : EStateM ε σ α) (Pure.pure (h a)) := fun _ => rfl

theorem Transports.throw (e : ε) :
    Transports f g h (throw e : EStateM ε σ α) (throw (g e)) := fun _ => rfl

theorem Transports.get : Transports f g f (get : EStateM ε σ σ) get := fun _ => rfl

theorem Transports.ofExcept {x : Except ε α} {y : Except ε β} (hx : Carries g h x y) :
    Transports f g h (Wire.ofExcept x) (Wire.ofExcept y) := by
  obtain rfl : y = carry g h x := hx
  intro s
  cases x with
  | error e => rfl
  | ok a => rfl

/-- The second half only has to carry over what the first half gives. -/
theorem Transports.bind {p : EStateM ε σ α} {q : EStateM ε σ β} {k : α → EStateM ε σ α'}
    {l : β → EStateM ε σ β'} (hp : Transports f g h p q)
    (hk : ∀ a s s', p.run s = .ok a s' → Transports f g h' (k a) (l (h a))) :
    Transports f g h' (p >>= k) (q >>= l) := by
  intro s
  have hq := hp s
  cases hrun : p.run s with
  | error e s' =>
      rw [hrun] at hq
      rw [run_bind_of_error hrun, run_bind_of_error hq]
      rfl
  | ok a s' =>
      rw [hrun] at hq
      rw [run_bind_of_ok hrun, run_bind_of_ok hq]
      exact hk a s s' hrun s'

/-- Repetition. -/
theorem Transports.repeatM {p q : EStateM ε σ α} (hp : Transports f g id p q) (n : Nat) :
    Transports f g id (Wire.repeatM p n) (Wire.repeatM q n) := by
  induction n with
  | zero => exact Transports.pure []
  | succ n ih => exact hp.bind fun _ _ _ _ => ih.bind fun _ _ _ _ => Transports.pure _

theorem Transports.ite {c : Prop} [Decidable c] {p p' : EStateM ε σ α} {q q' : EStateM ε σ β}
    (hp : c → Transports f g h p q) (hp' : ¬c → Transports f g h p' q') :
    Transports f g h (if c then p else p') (if c then q else q') := by
  by_cases hc : c
  · rw [if_pos hc, if_pos hc]
    exact hp hc
  · rw [if_neg hc, if_neg hc]
    exact hp' hc

end Wire
