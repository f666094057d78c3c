import Cildec.Lib.Run

/-!
# Traces of a fallible computation

What a computation passes through, as a list in order. A step that fails contributes nothing
after it, so the trace of a sequence is the trace of its first step followed by what comes
`after` it.
-/

namespace Wire

/-- What follows a step that succeeds. -/
def after (x : Except ε α) (trace : α → List β) : List β :=
  match x with
  | .ok a => trace a
  | .error _ => []

/-- What follows a step on a state that succeeds. -/
def afterRun (x : EStateM.Result ε σ α) (trace : α → σ → List β) : List β :=
  match x with
  | .ok a s => trace a s
  | .error _ _ => []

theorem mem_after {x : Except ε α} {trace : α → List β} {b : β} :
    b ∈ after x trace ↔ ∃ a, x = .ok a ∧ b ∈ trace a := by
  cases x with
  | ok a =>
      constructor
      · intro hb
        exact ⟨a, rfl, hb⟩
      · rintro ⟨a', ha, hb⟩
        cases ha
        exact hb
  | error e =>
      constructor
      · intro hb
        cases hb
      · rintro ⟨a, ha, _⟩
        cases ha

theorem mem_afterRun {x : EStateM.Result ε σ α} {trace : α → σ → List β} {b : β} :
    b ∈ afterRun x trace ↔ ∃ a s, x = .ok a s ∧ b ∈ trace a s := by
  cases x with
  | ok a s =>
      constructor
      · intro hb
        exact ⟨a, s, rfl, hb⟩
      · rintro ⟨a', s', ha, hb⟩
        cases ha
        exact hb
  | error e s =>
      constructor
      · intro hb
        cases hb
      · rintro ⟨a, s', ha, _⟩
        cases ha

end Wire
