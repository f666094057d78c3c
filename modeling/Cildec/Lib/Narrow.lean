import Cildec.Lib.Run

/-!
# Two programs of which one rejects more

`x` narrows `y` up to `Q` when every result of `x` is a result of `y`, and every result of
`y` that satisfies `Q` is one of `x`: what `x` rejects and `y` accepts lies outside `Q`.
`Narrows` is for computations without a state, `NarrowsM` for those with one, which also
have to agree on the final state. The rules follow the shape of two programs that differ
in some of their tests only (`Narrows.test`).

`SelectsM` is the exact case: `p` returns the results of `q` that satisfy `Q`, and no others.
-/

namespace Wire

variable {ε σ α β : Type}

/-- Every result of `x` is one of `y`, and every result of `y` in `Q` is one of `x`. -/
structure Narrows (Q : α → Prop) (x y : Except ε α) : Prop where
  up : ∀ a, x = .ok a → y = .ok a
  down : ∀ a, y = .ok a → Q a → x = .ok a

/-- `Narrows` for computations with a state: the final states agree too. -/
structure NarrowsM (Q : α → Prop) (p q : EStateM ε σ α) : Prop where
  up : ∀ s a s', p.run s = .ok a s' → q.run s = .ok a s'
  down : ∀ s a s', q.run s = .ok a s' → Q a → p.run s = .ok a s'

/-! ## Without a state -/

theorem Narrows.refl (Q : α → Prop) (x : Except ε α) : Narrows Q x x where
  up _ h := h
  down _ h _ := h

/-- Sequencing: `hback` says what a good result of the whole tells of the first half. -/
theorem Narrows.bind {P : α → Prop} {Q : β → Prop} {x y : Except ε α}
    {f g : α → Except ε β} (hx : Narrows P x y) (hback : ∀ a b, g a = .ok b → Q b → P a)
    (hf : ∀ a, Narrows Q (f a) (g a)) : Narrows Q (x >>= f) (y >>= g) where
  up b hrun := by
    obtain ⟨a, ha, hb⟩ := ok_bind_iff.mp hrun
    exact ok_bind_iff.mpr ⟨a, hx.up a ha, (hf a).up b hb⟩
  down b hrun hQ := by
    obtain ⟨a, ha, hb⟩ := ok_bind_iff.mp hrun
    exact ok_bind_iff.mpr ⟨a, hx.down a ha (hback a b hb hQ), (hf a).down b hb hQ⟩

/-- Sequencing after a common first half. -/
theorem Narrows.seq {Q : β → Prop} (x : Except ε α) {f g : α → Except ε β}
    (hf : ∀ a, Narrows Q (f a) (g a)) : Narrows Q (x >>= f) (x >>= g) :=
  Narrows.bind (P := fun _ => True) (Narrows.refl _ x) (fun _ _ _ _ => trivial) hf

/-- The narrow program fails, and the result of the other one lies outside `Q`. -/
theorem Narrows.of_rejected {Q : α → Prop} {e : ε} {a : α} (ha : ¬ Q a) :
    Narrows Q (.error e) (.ok a) where
  up _ h := by cases h
  down _ h hQ := by
    cases h
    exact absurd hQ ha

/-- A test that only the narrow program takes for a failure: the result the other one
returns there lies outside `Q`. -/
theorem Narrows.test {Q : α → Prop} {c : Prop} [Decidable c] {e : ε} {a b : α} (ha : ¬ Q a) :
    Narrows Q (if c then .error e else .ok b) (if c then .ok a else .ok b) := by
  by_cases hc : c
  · rw [if_pos hc, if_pos hc]
    exact Narrows.of_rejected ha
  · rw [if_neg hc, if_neg hc]
    exact Narrows.refl Q _

/-! ## With a state -/

theorem NarrowsM.refl (Q : α → Prop) (p : EStateM ε σ α) : NarrowsM Q p p where
  up _ _ _ h := h
  down _ _ _ h _ := h

theorem NarrowsM.bind {P : α → Prop} {Q : β → Prop} {p q : EStateM ε σ α}
    {f g : α → EStateM ε σ β} (hp : NarrowsM P p q)
    (hback : ∀ a s b s', (g a).run s = .ok b s' → Q b → P a)
    (hf : ∀ a, NarrowsM Q (f a) (g a)) : NarrowsM Q (p >>= f) (q >>= g) where
  up s b s'' hrun := by
    obtain ⟨a, s', ha, hb⟩ := run_bind_ok_iff.mp hrun
    exact run_bind_ok_iff.mpr ⟨a, s', hp.up _ _ _ ha, (hf a).up _ _ _ hb⟩
  down s b s'' hrun hQ := by
    obtain ⟨a, s', ha, hb⟩ := run_bind_ok_iff.mp hrun
    exact run_bind_ok_iff.mpr
      ⟨a, s', hp.down _ _ _ ha (hback a _ _ _ hb hQ), (hf a).down _ _ _ hb hQ⟩

theorem NarrowsM.seq {Q : β → Prop} (p : EStateM ε σ α) {f g : α → EStateM ε σ β}
    (hf : ∀ a, NarrowsM Q (f a) (g a)) : NarrowsM Q (p >>= f) (p >>= g) :=
  NarrowsM.bind (P := fun _ => True) (NarrowsM.refl _ p) (fun _ _ _ _ _ _ => trivial) hf

theorem NarrowsM.ofExcept {Q : α → Prop} {x y : Except ε α} (h : Narrows Q x y) :
    NarrowsM Q (Wire.ofExcept x : EStateM ε σ α) (Wire.ofExcept y) := by
  refine ⟨?_, ?_⟩
  · intro s a s' h'
    obtain ⟨hx, hs⟩ := ofExcept_ok_iff.mp h'
    exact ofExcept_ok_iff.mpr ⟨h.up a hx, hs⟩
  · intro s a s' h' hQ
    obtain ⟨hy, hs⟩ := ofExcept_ok_iff.mp h'
    exact ofExcept_ok_iff.mpr ⟨h.down a hy hQ, hs⟩

/-- Repetition: each of the results has to be a good one. -/
theorem NarrowsM.repeatM {P : α → Prop} {p q : EStateM ε σ α} (h : NarrowsM P p q) (n : Nat) :
    NarrowsM (fun as => ∀ a ∈ as, P a) (Wire.repeatM p n) (Wire.repeatM q n) := by
  induction n with
  | zero => exact NarrowsM.refl _ _
  | succ n ih =>
      refine h.bind ?_ fun a => ?_
      · intro a s as s' hrun hall
        obtain ⟨tail, _, _, hpure⟩ := run_bind_ok_iff.mp hrun
        cases hpure
        exact hall a List.mem_cons_self
      · refine ih.bind ?_ fun _ => NarrowsM.refl _ _
        intro tail s as s' hpure hall b hb
        cases hpure
        exact hall b (List.mem_cons_of_mem a hb)

/-! ## Exactly the good results -/

/-- `p` returns the results of `q` that satisfy `Q`, from the same states and into the same
states. -/
def SelectsM (Q : α → Prop) (p q : EStateM ε σ α) : Prop :=
  ∀ s a s', p.run s = .ok a s' ↔ q.run s = .ok a s' ∧ Q a

theorem SelectsM.same {Q : α → Prop} {p : EStateM ε σ α} (h : Returns p Q) : SelectsM Q p p := by
  intro s a s'
  constructor
  · intro hrun
    exact ⟨hrun, h s a s' hrun⟩
  · intro hrun
    exact hrun.1

/-- A test that only `p` makes: what `q` returns there is not in `Q`. -/
theorem SelectsM.throw {Q : α → Prop} {q : EStateM ε σ α} (e : ε)
    (h : Returns q fun a => ¬ Q a) : SelectsM Q (throw e) q := by
  intro s a s'
  constructor
  · intro hrun
    cases hrun
  · rintro ⟨hrun, hQ⟩
    exact absurd hQ (h s a s' hrun)

/-- Sequencing: `hback` says what a good result of the whole tells of the first half. -/
theorem SelectsM.bind {P : α → Prop} {Q : β → Prop} {p q : EStateM ε σ α}
    {f g : α → EStateM ε σ β} (hp : SelectsM P p q)
    (hback : ∀ a, Returns (g a) fun b => Q b → P a) (hf : ∀ a, P a → SelectsM Q (f a) (g a)) :
    SelectsM Q (p >>= f) (q >>= g) := by
  intro s b s''
  constructor
  · intro hrun
    obtain ⟨a, s', ha, hb⟩ := run_bind_ok_iff.mp hrun
    obtain ⟨ha', hP⟩ := (hp s a s').mp ha
    obtain ⟨hb', hQ⟩ := (hf a hP s' b s'').mp hb
    exact ⟨run_bind_ok_iff.mpr ⟨a, s', ha', hb'⟩, hQ⟩
  · rintro ⟨hrun, hQ⟩
    obtain ⟨a, s', ha, hb⟩ := run_bind_ok_iff.mp hrun
    have hP := hback a s' b s'' hb hQ
    exact run_bind_ok_iff.mpr
      ⟨a, s', (hp s a s').mpr ⟨ha, hP⟩, (hf a hP s' b s'').mpr ⟨hb, hQ⟩⟩

/-- Sequencing after a common first half. -/
theorem SelectsM.seq {Q : β → Prop} (p : EStateM ε σ α) {f g : α → EStateM ε σ β}
    (hf : ∀ a, SelectsM Q (f a) (g a)) : SelectsM Q (p >>= f) (p >>= g) :=
  SelectsM.bind (P := fun _ => True) (SelectsM.same fun _ _ _ _ => trivial)
    (fun _ _ _ _ _ _ => trivial) fun a _ => hf a

/-- The same function of the two results. -/
theorem SelectsM.map {P : α → Prop} {Q : β → Prop} {p q : EStateM ε σ α} {f : α → β}
    (h : SelectsM P p q) (hf : ∀ a, Q (f a) ↔ P a) :
    SelectsM Q (p >>= fun a => pure (f a)) (q >>= fun a => pure (f a)) := by
  refine h.bind ?_ ?_
  · intro a
    exact Returns.pure (hf a).mp
  · intro a ha
    exact SelectsM.same (Returns.pure ((hf a).mpr ha))

theorem SelectsM.ite {c : Prop} [Decidable c] {Q : α → Prop} {p p' q q' : EStateM ε σ α}
    (hp : c → SelectsM Q p p') (hq : ¬ c → SelectsM Q q q') :
    SelectsM Q (if c then p else q) (if c then p' else q') := by
  by_cases h : c
  · rw [if_pos h, if_pos h]
    exact hp h
  · rw [if_neg h, if_neg h]
    exact hq h

/-- Repetition: each of the results has to be a good one. -/
theorem SelectsM.repeatM {P : α → Prop} {p q : EStateM ε σ α} (h : SelectsM P p q) (n : Nat) :
    SelectsM (fun as => ∀ a ∈ as, P a) (Wire.repeatM p n) (Wire.repeatM q n) := by
  induction n with
  | zero => exact SelectsM.same (Returns.pure fun _ hmem => absurd hmem List.not_mem_nil)
  | succ n ih =>
      refine h.bind ?_ ?_
      · intro a
        exact Returns.map fun as hall => hall a List.mem_cons_self
      · intro a ha
        refine ih.map fun as => ?_
        rw [List.forall_mem_cons]
        exact and_iff_right ha

/-- `p` goes through exactly where the result of `q` is in `Q`. -/
theorem SelectsM.iff_of_ok {Q : α → Prop} {p q : EStateM ε σ α} (h : SelectsM Q p q) {s s' : σ}
    {a : α} (hq : q.run s = .ok a s') : Q a ↔ ∃ b t, p.run s = .ok b t := by
  constructor
  · intro hQ
    exact ⟨a, s', (h s a s').mpr ⟨hq, hQ⟩⟩
  · rintro ⟨b, t, hp⟩
    obtain ⟨hb, hQ⟩ := (h s b t).mp hp
    rw [hq] at hb
    cases hb
    exact hQ

end Wire
