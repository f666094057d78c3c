import Mathlib.Data.Nat.Notation
import Mathlib.Data.List.Chain

/-!
# Recursion as calls

The body of a recursive function, as a script that asks for the outcomes of the calls it
makes: `κ` are the calls, `ε` the errors and `β` what a call returns. `eval` runs a family of
bodies with so many levels of calls left.

* `eval_total`: where every call that a body can make has a lower rank, the evaluation ends
  within the rank of a call, and more levels change nothing (`Returns`);
* `eval_raises`: which errors a call can end with, from a rule for each part of a body;
* `returns_iff_run`: the outcome of a call from the outcomes of the calls in it.
-/

namespace Wire

/-- A computation that asks for the outcomes of calls. -/
inductive Script (κ ε β α : Type) where
  | done (value : α)
  | fail (error : ε)
  | ask (call : κ) (next : Except ε β → Script κ ε β α)

namespace Script

variable {κ ε β α γ : Type}

protected def bind : Script κ ε β α → (α → Script κ ε β γ) → Script κ ε β γ
  | done a, f => f a
  | fail e, _ => fail e
  | ask c next, f => ask c fun r => (next r).bind f

instance : Monad (Script κ ε β) where
  pure := done
  bind := Script.bind

/-- A call whose failure is passed on. -/
def call (c : κ) : Script κ ε β β :=
  ask c fun outcome =>
    match outcome with
    | .ok b => done b
    | .error e => fail e

/-- A call whose outcome is looked at. -/
def attempt (c : κ) : Script κ ε β (Except ε β) := ask c done

/-- Calls one after another. -/
def calls : List κ → Script κ ε β (List β)
  | [] => done []
  | c :: cs => do
      let b ← call c
      let bs ← calls cs
      return b :: bs

/-- A step without a call. -/
def ofExcept : Except ε α → Script κ ε β α
  | .ok a => done a
  | .error e => fail e

/-! ## The calls a script can make -/

/-- The script asks for the outcome of a call, given some outcomes of those before it. -/
inductive Asks : Script κ ε β α → κ → Prop
  | here (c : κ) (next : Except ε β → Script κ ε β α) : Asks (ask c next) c
  | later (c : κ) (next : Except ε β → Script κ ε β α) (r : Except ε β) (c' : κ) :
      Asks (next r) c' → Asks (ask c next) c'

theorem asks_done {a : α} {c : κ} : ¬ Asks (done a : Script κ ε β α) c := by
  intro h
  cases h

theorem asks_fail {e : ε} {c : κ} : ¬ Asks (fail e : Script κ ε β α) c := by
  intro h
  cases h

theorem asks_ofExcept {x : Except ε α} {c : κ} : ¬ Asks (ofExcept x : Script κ ε β α) c := by
  cases x with
  | ok a => exact asks_done
  | error e => exact asks_fail

theorem asks_call {c c' : κ} (h : Asks (call c : Script κ ε β β) c') : c' = c := by
  cases h with
  | here => rfl
  | later _ _ r _ h =>
      cases r with
      | ok b => exact (asks_done h).elim
      | error e => exact (asks_fail h).elim

theorem asks_attempt {c c' : κ} (h : Asks (attempt c : Script κ ε β (Except ε β)) c') :
    c' = c := by
  cases h with
  | here => rfl
  | later _ _ r _ h => exact (asks_done h).elim

/-- What a sequence asks for, one of its parts does. -/
theorem asks_bind {s : Script κ ε β α} {f : α → Script κ ε β γ} {c : κ}
    (h : Asks (s >>= f) c) : Asks s c ∨ ∃ a, Asks (f a) c := by
  induction s with
  | done a => exact .inr ⟨a, h⟩
  | fail e => exact (asks_fail h).elim
  | ask c' next ih =>
      cases h with
      | here => exact .inl (.here _ _)
      | later _ _ r _ h =>
          rcases ih r h with h | h
          · exact .inl (.later _ _ r _ h)
          · exact .inr h

theorem asks_calls {cs : List κ} {c : κ} (h : Asks (calls cs : Script κ ε β (List β)) c) :
    c ∈ cs := by
  induction cs with
  | nil => exact (asks_done h).elim
  | cons c' cs ih =>
      rcases asks_bind h with h | ⟨_, h⟩
      · rw [asks_call h]
        exact List.mem_cons_self
      · rcases asks_bind h with h | ⟨_, h⟩
        · exact List.mem_cons_of_mem _ (ih h)
        · exact (asks_done h).elim

/-! ## Running a script -/

/-- The outcome when the calls have the outcomes of `answer`; none when one of them has none. -/
def run (answer : κ → Option (Except ε β)) : Script κ ε β α → Option (Except ε α)
  | done a => some (.ok a)
  | fail e => some (.error e)
  | ask c next => (answer c).bind fun outcome => (next outcome).run answer

variable {answer answer' : κ → Option (Except ε β)}

/-- A script ends when the calls it makes do. -/
theorem run_isSome {s : Script κ ε β α} (h : ∀ c, s.Asks c → (answer c).isSome = true) :
    (s.run answer).isSome = true := by
  induction s with
  | done a => rfl
  | fail e => rfl
  | ask c next ih =>
      obtain ⟨outcome, houtcome⟩ := Option.isSome_iff_exists.mp (h c (.here _ _))
      rw [run, houtcome, Option.bind_some]
      exact ih outcome fun c' hc' => h c' (.later _ _ outcome _ hc')

/-- More answers do not change an outcome. -/
theorem run_mono {s : Script κ ε β α} {x : Except ε α}
    (h : ∀ c r, answer c = some r → answer' c = some r) (hrun : s.run answer = some x) :
    s.run answer' = some x := by
  induction s with
  | done a => exact hrun
  | fail e => exact hrun
  | ask c next ih =>
      obtain ⟨outcome, houtcome, hrun⟩ := Option.bind_eq_some_iff.mp hrun
      rw [run, h c outcome houtcome, Option.bind_some]
      exact ih outcome hrun

/-- Only the answers to the calls it makes matter. -/
theorem run_congr {s : Script κ ε β α} (h : ∀ c, s.Asks c → answer c = answer' c) :
    s.run answer = s.run answer' := by
  induction s with
  | done a => rfl
  | fail e => rfl
  | ask c next ih =>
      rw [run, run, h c (.here _ _)]
      cases answer' c with
      | none => rfl
      | some r => exact ih r fun c' hc' => h c' (.later _ _ r _ hc')

theorem run_bind_ok_iff {s : Script κ ε β α} {f : α → Script κ ε β γ} {b : γ} :
    (s >>= f).run answer = some (.ok b) ↔
      ∃ a, s.run answer = some (.ok a) ∧ (f a).run answer = some (.ok b) := by
  induction s with
  | done a =>
      constructor
      · intro h
        exact ⟨a, rfl, h⟩
      · rintro ⟨a', ha, h⟩
        cases ha
        exact h
  | fail e =>
      constructor
      · intro h
        cases h
      · rintro ⟨a, ha, _⟩
        cases ha
  | ask c next ih =>
      have hstep : (ask c next >>= f : Script κ ε β γ) = ask c fun r => next r >>= f := rfl
      rw [hstep, run, run]
      cases answer c with
      | none => simp
      | some r => exact ih r

theorem run_call_ok_iff {c : κ} {b : β} :
    (call c : Script κ ε β β).run answer = some (.ok b) ↔ answer c = some (.ok b) := by
  rw [call, run]
  cases answer c with
  | none => simp
  | some r =>
      cases r with
      | ok b' => exact Iff.rfl
      | error e => simp [run]

theorem run_attempt_ok_iff {c : κ} {r : Except ε β} :
    (attempt c : Script κ ε β (Except ε β)).run answer = some (.ok r) ↔ answer c = some r := by
  rw [attempt, run]
  cases answer c with
  | none => simp
  | some r' => simp [run]

theorem run_ofExcept_ok_iff {x : Except ε α} {a : α} :
    (ofExcept x : Script κ ε β α).run answer = some (.ok a) ↔ x = .ok a := by
  cases x with
  | ok a' => simp [ofExcept, run]
  | error e => simp [ofExcept, run]

/-- The outcomes of calls one after another. -/
theorem run_calls_ok_iff {cs : List κ} {bs : List β} :
    (calls cs : Script κ ε β (List β)).run answer = some (.ok bs) ↔
      List.Forall₂ (fun c b => answer c = some (.ok b)) cs bs := by
  induction cs generalizing bs with
  | nil =>
      constructor
      · intro h
        cases h
        exact .nil
      · intro h
        cases h
        rfl
  | cons c cs ih =>
      rw [calls, run_bind_ok_iff]
      constructor
      · rintro ⟨b, hb, h⟩
        obtain ⟨bs', hbs, h⟩ := run_bind_ok_iff.mp h
        cases h
        exact .cons (run_call_ok_iff.mp hb) (ih.mp hbs)
      · intro h
        cases h with
        | cons hb hbs =>
            exact ⟨_, run_call_ok_iff.mpr hb, run_bind_ok_iff.mpr ⟨_, ih.mpr hbs, rfl⟩⟩

theorem run_bind_error {s : Script κ ε β α} {f : α → Script κ ε β γ} {e : ε}
    (h : (s >>= f).run answer = some (.error e)) :
    s.run answer = some (.error e) ∨
      ∃ a, s.run answer = some (.ok a) ∧ (f a).run answer = some (.error e) := by
  induction s with
  | done a => exact .inr ⟨a, rfl, h⟩
  | fail e' =>
      cases h
      exact .inl rfl
  | ask c next ih =>
      have hstep : (ask c next >>= f : Script κ ε β γ) = ask c fun r => next r >>= f := rfl
      rw [hstep, run] at h
      obtain ⟨outcome, houtcome, h⟩ := Option.bind_eq_some_iff.mp h
      rw [run, houtcome, Option.bind_some]
      exact ih outcome h

/-! ## The errors a script can end with -/

/-- Where the errors of the calls satisfy `Q`, those of the script satisfy `P`. -/
def Raises (P : ε → Prop) (Q : κ → ε → Prop) (s : Script κ ε β α) : Prop :=
  ∀ answer : κ → Option (Except ε β), (∀ c e, answer c = some (.error e) → Q c e) →
    ∀ e, s.run answer = some (.error e) → P e

section Raises

variable {P : ε → Prop} {Q : κ → ε → Prop}

theorem Raises.done (a : α) : Raises P Q (Script.done a : Script κ ε β α) := by
  intro answer _ e h
  cases h

theorem Raises.fail {e : ε} (h : P e) : Raises P Q (Script.fail e : Script κ ε β α) := by
  intro answer _ e' he
  cases he
  exact h

theorem Raises.ofExcept {x : Except ε α} (h : ∀ e, x = .error e → P e) :
    Raises P Q (Script.ofExcept x : Script κ ε β α) := by
  cases x with
  | ok a => exact Raises.done a
  | error e => exact Raises.fail (h e rfl)

theorem Raises.call {c : κ} (h : ∀ e, Q c e → P e) :
    Raises P Q (Script.call c : Script κ ε β β) := by
  intro answer hanswer e he
  obtain ⟨outcome, houtcome, he⟩ := Option.bind_eq_some_iff.mp he
  cases outcome with
  | ok b => cases he
  | error e' =>
      cases he
      exact h e (hanswer c e houtcome)

theorem Raises.bind {s : Script κ ε β α} {f : α → Script κ ε β γ} (hs : Raises P Q s)
    (hf : ∀ a, Raises P Q (f a)) : Raises P Q (s >>= f) := by
  intro answer hanswer e he
  rcases run_bind_error he with he | ⟨a, _, he⟩
  · exact hs answer hanswer e he
  · exact hf a answer hanswer e he

/-- What follows a call whose outcome is looked at knows what its error can be. -/
theorem Raises.attempt_bind {c : κ} {f : Except ε β → Script κ ε β γ}
    (hf : ∀ r, (∀ e, r = .error e → Q c e) → Raises P Q (f r)) :
    Raises P Q (Script.attempt c >>= f) := by
  intro answer hanswer e he
  obtain ⟨outcome, houtcome, he⟩ := Option.bind_eq_some_iff.mp he
  refine hf outcome ?_ answer hanswer e he
  rintro e' rfl
  exact hanswer c e' houtcome

theorem Raises.calls {cs : List κ} (h : ∀ c ∈ cs, ∀ e, Q c e → P e) :
    Raises P Q (Script.calls cs : Script κ ε β (List β)) := by
  induction cs with
  | nil => exact Raises.done []
  | cons c cs ih =>
      obtain ⟨hc, hcs⟩ := List.forall_mem_cons.mp h
      exact (Raises.call hc).bind fun _ => (ih hcs).bind fun _ => Raises.done _

end Raises

/-! ## Evaluation -/

/-- The outcome of a call, when the calls in it nest at most `fuel` deep. -/
def eval (body : κ → Script κ ε β β) : Nat → κ → Option (Except ε β)
  | 0, _ => none
  | fuel + 1, c => (body c).run (eval body fuel)

variable {body : κ → Script κ ε β β}

theorem eval_succ {fuel : Nat} : ∀ {c : κ} {x : Except ε β},
    eval body fuel c = some x → eval body (fuel + 1) c = some x := by
  induction fuel with
  | zero =>
      intro c x h
      cases h
  | succ fuel ih =>
      intro c x h
      exact run_mono (fun c' r hr => ih hr) h

theorem eval_mono {fuel fuel' : Nat} (hle : fuel ≤ fuel') {c : κ} {x : Except ε β}
    (h : eval body fuel c = some x) : eval body fuel' c = some x := by
  induction hle with
  | refl => exact h
  | step _ ih => exact eval_succ ih

/-- Where calls go down in rank, a call ends within the levels of its rank. -/
theorem eval_total {rank : κ → Nat} (hrank : ∀ c c', (body c).Asks c' → rank c' < rank c) :
    ∀ {fuel : Nat} {c : κ}, rank c < fuel → (eval body fuel c).isSome = true := by
  intro fuel
  induction fuel with
  | zero =>
      intro c hlt
      exact absurd hlt (Nat.not_lt_zero _)
  | succ fuel ih =>
      intro c hlt
      refine run_isSome fun c' hc' => ih ?_
      exact Nat.lt_of_lt_of_le (hrank c c' hc') (Nat.le_of_lt_succ hlt)

/-- The errors of a call are those its body allows. -/
theorem eval_raises {Q : κ → ε → Prop} (h : ∀ c, Raises (Q c) Q (body c)) :
    ∀ {fuel : Nat} {c : κ} {e : ε}, eval body fuel c = some (.error e) → Q c e := by
  intro fuel
  induction fuel with
  | zero =>
      intro c e he
      cases he
  | succ fuel ih =>
      intro c e he
      exact h c _ (fun c' e' he' => ih he') e he

/-- The outcome of a call. -/
def Returns (body : κ → Script κ ε β β) (c : κ) (x : Except ε β) : Prop :=
  ∃ fuel, eval body fuel c = some x

theorem Returns.unique {c : κ} {x y : Except ε β} (hx : Returns body c x)
    (hy : Returns body c y) : x = y := by
  obtain ⟨m, hm⟩ := hx
  obtain ⟨n, hn⟩ := hy
  have hm' := eval_mono (Nat.le_max_left m n) hm
  have hn' := eval_mono (Nat.le_max_right m n) hn
  rw [hm'] at hn'
  exact Option.some.inj hn'

/-- The outcome of a call is the one found with enough levels. -/
theorem returns_iff {rank : κ → Nat} (hrank : ∀ c c', (body c).Asks c' → rank c' < rank c)
    {fuel : Nat} {c : κ} (hfuel : rank c < fuel) {x : Except ε β} :
    Returns body c x ↔ eval body fuel c = some x := by
  constructor
  · intro h
    obtain ⟨y, hy⟩ := Option.isSome_iff_exists.mp (eval_total hrank hfuel)
    rw [hy, h.unique ⟨fuel, hy⟩]
  · intro h
    exact ⟨fuel, h⟩

/-- The outcomes of all calls, each found with the levels of its rank. -/
def outcome (body : κ → Script κ ε β β) (rank : κ → Nat) (c : κ) : Option (Except ε β) :=
  eval body (rank c + 1) c

theorem outcome_iff {rank : κ → Nat} (hrank : ∀ c c', (body c).Asks c' → rank c' < rank c)
    {c : κ} {x : Except ε β} : outcome body rank c = some x ↔ Returns body c x :=
  (returns_iff hrank (Nat.lt_succ_self (rank c))).symm

/-- A call returns what its body does when the calls in it return what they do. -/
theorem returns_iff_run {rank : κ → Nat}
    (hrank : ∀ c c', (body c).Asks c' → rank c' < rank c) {c : κ} {x : Except ε β} :
    Returns body c x ↔ (body c).run (outcome body rank) = some x := by
  have hanswers : (body c).run (eval body (rank c)) = (body c).run (outcome body rank) := by
    refine run_congr fun c' hc' => ?_
    have hlt := hrank c c' hc'
    obtain ⟨y, hy⟩ := Option.isSome_iff_exists.mp (eval_total hrank hlt)
    rw [hy, (outcome_iff hrank).mpr ⟨_, hy⟩]
  rw [← hanswers]
  exact returns_iff hrank (Nat.lt_succ_self (rank c))

end Script

end Wire
