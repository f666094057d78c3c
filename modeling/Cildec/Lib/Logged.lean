import Cildec.Lib.Run

/-!
# Computations that log what they do

A `Logged` computation also writes a list of events, which it keeps where it fails. `Traces`
says that it runs as another one does that writes nothing, and what holds of its events; its
rules follow the shape of the program.

* `Traces.bind`, `Traces.repeatM`: the composition rules;
* `Traces.log_bind`, `Traces.read_bind`: what only the logged computation does.
-/

namespace Wire

/-- A computation and the events it writes in order, also where it fails. -/
def Logged (ε σ ι α : Type) : Type := σ → EStateM.Result ε σ α × List ι

variable {ε σ ι α β : Type}

namespace Logged

instance : Monad (Logged ε σ ι) where
  pure a := fun s => (.ok a s, [])
  bind x f := fun s =>
    match x s with
    | (.ok a s', events) => ((f a s').1, events ++ (f a s').2)
    | (.error e s', events) => (.error e s', events)

/-- Writes nothing. -/
def silent (x : EStateM ε σ α) : Logged ε σ ι α := fun s => (x.run s, [])

/-- Looks at the state. -/
def read (f : σ → α) : Logged ε σ ι α := fun s => (.ok (f s) s, [])

/-- Writes what `event` says of the state. -/
def log (event : σ → ι) : Logged ε σ ι Unit := fun s => (.ok () s, [event s])

/-- The state a run ends in. -/
def finalState : EStateM.Result ε σ α → σ
  | .ok _ s => s
  | .error _ s => s

/-- Writes what `event` says of the state that `x` ends in, also where it fails. -/
def watched (event : σ → ι) (x : EStateM ε σ α) : Logged ε σ ι α :=
  fun s => (x.run s, [event (finalState (x.run s))])

/-- `x`, `n` times over, with the results in order. -/
def repeatM (x : Logged ε σ ι α) : Nat → Logged ε σ ι (List α)
  | 0 => pure []
  | n + 1 => do
      let a ← x
      let as ← repeatM x n
      return a :: as

theorem bind_of_ok {x : Logged ε σ ι α} {f : α → Logged ε σ ι β} {s s' : σ} {a : α}
    {events : List ι} (h : x s = (.ok a s', events)) :
    (x >>= f) s = ((f a s').1, events ++ (f a s').2) := by
  show (match x s with
    | (.ok a s', events) => ((f a s').1, events ++ (f a s').2)
    | (.error e s', events) => (.error e s', events)) = _
  rw [h]

theorem bind_of_error {x : Logged ε σ ι α} {f : α → Logged ε σ ι β} {s s' : σ} {e : ε}
    {events : List ι} (h : x s = (.error e s', events)) :
    (x >>= f) s = (.error e s', events) := by
  show (match x s with
    | (.ok a s', events) => ((f a s').1, events ++ (f a s').2)
    | (.error e s', events) => (.error e s', events)) = _
  rw [h]

end Logged

open Logged

/-- From the states of `P`, `x` runs as `y` does, all its events satisfy `Q`, and what it
returns satisfies `R` in the state it ends in. -/
structure Traces (P : σ → Prop) (Q : ι → Prop) (R : α → σ → Prop) (x : Logged ε σ ι α)
    (y : EStateM ε σ α) : Prop where
  run : ∀ s, P s → (x s).1 = y.run s
  events : ∀ s, P s → ∀ i ∈ (x s).2, Q i
  post : ∀ s, P s → ∀ a s', y.run s = .ok a s' → R a s'

namespace Traces

variable {P P' : σ → Prop} {Q : ι → Prop} {R R' : α → σ → Prop} {S : β → σ → Prop}
  {x : Logged ε σ ι α} {y : EStateM ε σ α} {f : α → Logged ε σ ι β} {g : α → EStateM ε σ β}

/-- A fact that holds in all states of `P` may be used. -/
theorem of_pre (h : ∀ s, P s → Traces P Q R x y) : Traces P Q R x y where
  run s hs := (h s hs).run s hs
  events s hs := (h s hs).events s hs
  post s hs := (h s hs).post s hs

theorem mono (h : Traces P Q R x y) (hP : ∀ s, P' s → P s) (hR : ∀ a s, R a s → R' a s) :
    Traces P' Q R' x y where
  run s hs := h.run s (hP s hs)
  events s hs := h.events s (hP s hs)
  post s hs a s' hrun := hR a s' (h.post s (hP s hs) a s' hrun)

theorem silent (h : ∀ s, P s → ∀ a s', y.run s = .ok a s' → R a s') :
    Traces P Q R (silent y) y where
  run _ _ := rfl
  events _ _ _ hi := absurd hi List.not_mem_nil
  post := h

theorem pure {a : α} (h : ∀ s, P s → R a s) :
    Traces P Q R (Pure.pure a : Logged ε σ ι α) (Pure.pure a : EStateM ε σ α) where
  run _ _ := rfl
  events _ _ _ hi := absurd hi List.not_mem_nil
  post s hs _ _ hrun := by
    cases hrun
    exact h s hs

theorem throw (e : ε) :
    Traces P Q R (Logged.silent (throw e) : Logged ε σ ι α) (throw e : EStateM ε σ α) :=
  silent fun _ _ _ _ hrun => nomatch hrun

theorem watched {event : σ → ι} (hevent : ∀ s, P s → Q (event (finalState (y.run s))))
    (h : ∀ s, P s → ∀ a s', y.run s = .ok a s' → R a s') :
    Traces P Q R (Logged.watched event y) y where
  run _ _ := rfl
  events s hs i hi := by
    rw [List.mem_singleton.mp hi]
    exact hevent s hs
  post := h

/-- The outcomes of a step: it fails, or it succeeds and what comes after it runs on. -/
theorem bind (hx : Traces P Q R x y) (hf : ∀ a, Traces (R a) Q S (f a) (g a)) :
    Traces P Q S (x >>= f) (y >>= g) where
  run s hs := by
    have hrun := hx.run s hs
    rcases hxs : x s with ⟨⟨a, s'⟩ | ⟨e, s'⟩, events⟩
    · rw [hxs] at hrun
      rw [bind_of_ok hxs, run_bind_of_ok hrun.symm]
      exact (hf a).run s' (hx.post s hs a s' hrun.symm)
    · rw [hxs] at hrun
      rw [bind_of_error hxs, run_bind_of_error hrun.symm]
  events s hs i hi := by
    have hrun := hx.run s hs
    have hevents := hx.events s hs
    rcases hxs : x s with ⟨⟨a, s'⟩ | ⟨e, s'⟩, events⟩
    · rw [hxs] at hrun hevents
      rw [bind_of_ok hxs] at hi
      rcases List.mem_append.mp hi with hi | hi
      · exact hevents i hi
      · exact (hf a).events s' (hx.post s hs a s' hrun.symm) i hi
    · rw [hxs] at hevents
      rw [bind_of_error hxs] at hi
      exact hevents i hi
  post s hs b s'' hrun := by
    obtain ⟨a, s', ha, hb⟩ := run_bind_ok_iff.mp hrun
    exact (hf a).post s' (hx.post s hs a s' ha) b s'' hb

theorem ite {c : Prop} [Decidable c] {x' : Logged ε σ ι α} {y' : EStateM ε σ α}
    (h : c → Traces P Q R x y) (h' : ¬c → Traces P Q R x' y') :
    Traces P Q R (if c then x else x') (if c then y else y') := by
  by_cases hc : c
  · rw [if_pos hc, if_pos hc]
    exact h hc
  · rw [if_neg hc, if_neg hc]
    exact h' hc

/-- An event that `Q` allows. -/
theorem log_bind {event : σ → ι} {f : Unit → Logged ε σ ι α} (hevent : ∀ s, P s → Q (event s))
    (h : Traces P Q R (f ()) y) : Traces P Q R (log event >>= f) y where
  run := h.run
  events s hs i hi := by
    rcases List.mem_cons.mp hi with rfl | hi
    · exact hevent s hs
    · exact h.events s hs i hi
  post := h.post

/-- A look at the state. -/
theorem read_bind {k : σ → β} {f : β → Logged ε σ ι α}
    (h : ∀ b, Traces (fun s => P s ∧ k s = b) Q R (f b) y) :
    Traces P Q R (read k >>= f) y where
  run s hs := (h (k s)).run s ⟨hs, rfl⟩
  events s hs := (h (k s)).events s ⟨hs, rfl⟩
  post s hs := (h (k s)).post s ⟨hs, rfl⟩

/-- An event that says how `x` succeeded. -/
theorem then_log {event : α → σ → ι} (h : Traces P Q R x y) (hevent : ∀ a s, R a s → Q (event a s))
    (hR : ∀ a s, R a s → R' a s) :
    Traces P Q R' (x >>= fun a => log (event a) >>= fun _ => Pure.pure a) y := by
  have hbind : Traces P Q R' (x >>= fun a => log (event a) >>= fun _ => Pure.pure a)
      (y >>= fun a => Pure.pure a) :=
    h.bind fun a => log_bind (hevent a) (pure (hR a))
  rwa [bind_pure] at hbind

/-- A loop keeps what each round keeps. -/
theorem repeatM (hx : Traces P Q (fun _ => P) x y) :
    ∀ n, Traces P Q (fun _ => P) (Logged.repeatM x n) (Wire.repeatM y n)
  | 0 => pure fun _ hs => hs
  | n + 1 => hx.bind fun _ => (repeatM hx n).bind fun _ => pure fun _ hs => hs

end Traces

end Wire
