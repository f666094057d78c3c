import Cildec.Lib.Run

/-!
# A program that follows another one

`Follows f Q p q` says that wherever `p` returns a result in `Q`, `q` returns the same result
from the state that `f` carries over, and leaves the state that `f` carries over. Nothing is
said of the states in which `p` fails, or returns a result outside of `Q`: there `q` may go on
where `p` stops. The rules follow the shape of the two programs.
-/

namespace Wire

variable {ε σ α β : Type} {f : σ → σ}

/-- Where `p` returns a result in `Q`, `q` does the same from the state carried over. -/
def Follows (f : σ → σ) (Q : α → Prop) (p q : EStateM ε σ α) : Prop :=
  ∀ s a s', p.run s = .ok a s' → Q a → q.run (f s) = .ok a (f s')

/-- `p` follows itself, whatever it returns. -/
abbrev Follows.Itself (f : σ → σ) (p : EStateM ε σ α) : Prop := Follows f (fun _ => True) p p

namespace Follows

variable {P : α → Prop} {Q : β → Prop} {p q : EStateM ε σ α} {k l : α → EStateM ε σ β}

theorem mono {R : α → Prop} (h : Follows f P p q) (hR : ∀ a, R a → P a) : Follows f R p q :=
  fun s a s' hrun ha => h s a s' hrun (hR a ha)

theorem pure (a : α) (P : α → Prop) : Follows f P (Pure.pure a : EStateM ε σ α) (Pure.pure a) := by
  intro s b s' hrun _
  cases hrun
  rfl

theorem throw (e : ε) (P : α → Prop) (q : EStateM ε σ α) : Follows f P (throw e) q := by
  intro s a s' hrun
  cases hrun

/-- Sequencing: `hback` says what a good result of the whole tells of the first half. -/
theorem bind (hp : Follows f P p q)
    (hback : ∀ a s b s', (k a).run s = .ok b s' → Q b → P a)
    (hk : ∀ a, P a → Follows f Q (k a) (l a)) : Follows f Q (p >>= k) (q >>= l) := by
  intro s b s'' hrun hQ
  obtain ⟨a, s', ha, hb⟩ := run_bind_ok_iff.mp hrun
  have hP := hback a s' b s'' hb hQ
  exact run_bind_ok_iff.mpr ⟨a, f s', hp s a s' ha hP, hk a hP s' b s'' hb hQ⟩

/-- Sequencing after a half that may return anything. -/
theorem seq (hp : Follows f (fun _ => True) p q) (hk : ∀ a, Follows f Q (k a) (l a)) :
    Follows f Q (p >>= k) (q >>= l) :=
  hp.bind (fun _ _ _ _ _ _ => trivial) fun a _ => hk a

/-- The state is looked at, but not what `f` changes of it. -/
theorem get_bind {k : σ → EStateM ε σ β} {l : σ → EStateM ε σ β}
    (hk : ∀ s, Follows f Q (k s) (l (f s))) : Follows f Q (get >>= k) (get >>= l) := by
  intro s b s' hrun hQ
  exact hk s s b s' hrun hQ

theorem ite {c : Prop} [Decidable c] {p' q' : EStateM ε σ α} (hp : Follows f P p q)
    (hp' : Follows f P p' q') : Follows f P (if c then p else p') (if c then q else q') := by
  split
  · exact hp
  · exact hp'

theorem ofExcept {x y : Except ε α} (h : ∀ a, x = .ok a → P a → y = .ok a) :
    Follows f P (Wire.ofExcept x) (Wire.ofExcept y) := by
  intro s a s' hrun hP
  obtain ⟨hx, rfl⟩ := ofExcept_ok_iff.mp hrun
  exact ofExcept_ok_iff.mpr ⟨h a hx hP, rfl⟩

/-- Repetition: each of the results has to be a good one. -/
theorem repeatM (hp : Follows f P p q) (n : Nat) :
    Follows f (fun as => ∀ a ∈ as, P a) (Wire.repeatM p n) (Wire.repeatM q n) := by
  induction n with
  | zero => exact Follows.pure _ _
  | succ n ih =>
      refine hp.bind ?_ fun a _ => ?_
      · intro a s as s' hrun hall
        obtain ⟨tail, _, _, hpure⟩ := run_bind_ok_iff.mp hrun
        cases hpure
        exact hall a List.mem_cons_self
      · refine ih.bind ?_ fun tail _ => Follows.pure _ _
        intro tail s as s' hpure hall b hb
        cases hpure
        exact hall b (List.mem_cons_of_mem a hb)

end Follows

end Wire
