import Mathlib.Data.List.Forall2

/-!
# Computations over a byte cursor

A decoder is a computation `EStateM ε σ α`: it keeps its state when it fails, as
a `&mut self` method does. A `Cursor` is a state that stands somewhere in a byte
string. `Decodes` says what a decoder returns on the bytes it is given and that
it reads exactly those; its rules follow the shape of the program, so that a
round-trip proof is one rule per line of the decoder. `Reads` is the converse
reading of a successful run.

* `run_bind_ok_iff`: the inversion of a sequenced computation;
* `Decodes.bind`, `Decodes.repeatM`: the composition rules;
* `Reads.bind`, `Reads.repeatM`: the same, from the result back to the bytes.
-/

namespace Wire

universe u

variable {ε σ α β : Type}

/-! ## Sequencing -/

theorem run_bind_of_ok {x : EStateM ε σ α} {f : α → EStateM ε σ β} {s s' : σ} {a : α}
    (h : x.run s = .ok a s') : (x >>= f).run s = (f a).run s' := by
  rw [EStateM.run_bind, h]

theorem run_bind_of_error {x : EStateM ε σ α} {f : α → EStateM ε σ β} {s s' : σ}
    {e : ε} (h : x.run s = .error e s') : (x >>= f).run s = .error e s' := by
  rw [EStateM.run_bind, h]

/-- A sequenced computation succeeds exactly when both halves do. -/
theorem run_bind_ok_iff {x : EStateM ε σ α} {f : α → EStateM ε σ β} {s s'' : σ} {b : β} :
    (x >>= f).run s = .ok b s'' ↔
      ∃ a s', x.run s = .ok a s' ∧ (f a).run s' = .ok b s'' := by
  rw [EStateM.run_bind]
  cases h : x.run s with
  | ok a s' =>
      constructor
      · intro hf
        exact ⟨a, s', rfl, hf⟩
      · rintro ⟨a', t, hx, hf⟩
        cases hx
        exact hf
  | error e s' =>
      constructor
      · intro hf
        cases hf
      · rintro ⟨a', t, hx, _⟩
        cases hx

/-- The same without a state. -/
theorem ok_bind_iff {x : Except ε α} {f : α → Except ε β} {b : β} :
    x >>= f = .ok b ↔ ∃ a, x = .ok a ∧ f a = .ok b := by
  cases x with
  | error e =>
      constructor
      · intro h
        cases h
      · rintro ⟨a, ha, _⟩
        cases ha
  | ok a =>
      constructor
      · intro h
        exact ⟨a, rfl, h⟩
      · rintro ⟨a', ha, h⟩
        cases ha
        exact h

/-- A computation whose result is a value has one. -/
theorem exists_ok_of_isOk {x : Except ε α} (h : x.isOk) : ∃ a, x = .ok a := by
  cases x with
  | error e => cases h
  | ok a => exact ⟨a, rfl⟩

theorem ok_of_toOption {x : Except ε α} {a : α} (h : x.toOption = some a) : x = .ok a := by
  cases x with
  | error e => cases h
  | ok b => exact congrArg Except.ok (Option.some.inj h)

/-- An indexed loop whose steps all succeed. -/
theorem mapM_range_ok {f : Nat → Except ε β} {bs : List β}
    (h : ∀ i b, bs[i]? = some b → f i = .ok b) : (List.range bs.length).mapM f = .ok bs := by
  induction bs generalizing f with
  | nil => rfl
  | cons b bs ih =>
      have htail : (List.range bs.length).mapM (f ∘ Nat.succ) = .ok bs :=
        ih fun i c hc => h (i + 1) c hc
      rw [List.length_cons, List.range_succ_eq_map, List.mapM_cons, List.mapM_map, h 0 b rfl,
        htail]
      rfl

/-- A loop succeeds exactly when all its steps do. -/
theorem exists_mapM_ok_iff {f : α → Except ε β} {xs : List α} :
    (∃ bs, xs.mapM f = .ok bs) ↔ ∀ x ∈ xs, ∃ b, f x = .ok b := by
  induction xs with
  | nil =>
      constructor
      · intro _ x hx
        cases hx
      · intro _
        exact ⟨[], rfl⟩
  | cons x xs ih =>
      rw [List.forall_mem_cons, ← ih, List.mapM_cons]
      constructor
      · rintro ⟨bs, hbs⟩
        cases hx : f x with
        | error e =>
            rw [hx] at hbs
            cases hbs
        | ok b =>
            cases htail : xs.mapM f with
            | error e =>
                rw [hx, htail] at hbs
                cases hbs
            | ok cs => exact ⟨⟨b, rfl⟩, ⟨cs, rfl⟩⟩
      · rintro ⟨⟨b, hx⟩, ⟨bs, htail⟩⟩
        refine ⟨b :: bs, ?_⟩
        rw [hx, htail]
        rfl

/-- A test that fails when its condition holds. -/
theorem error_if_ok_iff {c : Prop} [Decidable c] {e : ε} {x : Except ε α} {a : α} :
    (if c then .error e else x) = .ok a ↔ ¬ c ∧ x = .ok a := by
  by_cases hc : c
  · simp [hc]
  · simp [hc]

/-- A loop for its effect succeeds exactly when all its steps do. -/
theorem forM_ok_iff {xs : List α} {f : α → Except ε PUnit} :
    xs.forM f = .ok ⟨⟩ ↔ ∀ x ∈ xs, f x = .ok ⟨⟩ := by
  induction xs with
  | nil => exact iff_of_true rfl fun _ h => nomatch h
  | cons x xs ih =>
      rw [List.forall_mem_cons, ← ih]
      show (f x >>= fun _ => xs.forM f) = .ok ⟨⟩ ↔ _
      cases hx : f x with
      | error e =>
          refine iff_of_false (fun h => ?_) (fun h => ?_)
          · cases h
          · cases h.1
      | ok u => exact ⟨fun h => ⟨rfl, h⟩, fun h => h.2⟩

@[simp] theorem run_throw (e : ε) (s : σ) :
    (throw e : EStateM ε σ α).run s = .error e s := rfl

/-- A computation that does not touch the state. -/
def ofExcept : Except ε α → EStateM ε σ α
  | .ok a => pure a
  | .error e => throw e

@[simp] theorem run_ofExcept_ok (a : α) (s : σ) :
    (ofExcept (.ok a) : EStateM ε σ α).run s = .ok a s := rfl

theorem ofExcept_ok_iff {x : Except ε α} {s s' : σ} {a : α} :
    (ofExcept x : EStateM ε σ α).run s = .ok a s' ↔ x = .ok a ∧ s' = s := by
  cases x with
  | error e =>
      constructor
      · intro h
        cases h
      · rintro ⟨h, _⟩
        cases h
  | ok b =>
      constructor
      · intro h
        cases h
        exact ⟨rfl, rfl⟩
      · rintro ⟨h, rfl⟩
        cases h
        rfl

/-- The value, or else the error. -/
def orFail (value : Option α) (e : ε) : EStateM ε σ α :=
  match value with
  | some a => pure a
  | none => throw e

theorem orFail_ok_iff {value : Option α} {e : ε} {s s' : σ} {a : α} :
    (orFail value e : EStateM ε σ α).run s = .ok a s' ↔ value = some a ∧ s' = s := by
  cases value with
  | none =>
      constructor
      · intro h
        cases h
      · rintro ⟨h, _⟩
        cases h
  | some b =>
      constructor
      · intro h
        cases h
        exact ⟨rfl, rfl⟩
      · rintro ⟨h, rfl⟩
        cases h
        rfl

/-- Fails unless `c` holds. -/
def check (c : Prop) [Decidable c] (e : ε) : EStateM ε σ Unit :=
  if c then pure () else throw e

theorem check_ok_iff {c : Prop} [Decidable c] {e : ε} {s s' : σ} :
    (check c e).run s = .ok () s' ↔ c ∧ s' = s := by
  by_cases h : c
  · rw [check, if_pos h]
    constructor
    · intro hrun
      cases hrun
      exact ⟨h, rfl⟩
    · rintro ⟨_, rfl⟩
      rfl
  · rw [check, if_neg h]
    constructor
    · intro hrun
      cases hrun
    · intro hc
      exact absurd hc.1 h

/-- `p`, `n` times over, with the results in order. -/
def repeatM (p : EStateM ε σ α) : Nat → EStateM ε σ (List α)
  | 0 => pure []
  | n + 1 => do
      let a ← p
      let as ← repeatM p n
      return a :: as

/-! ## What a result satisfies -/

/-- Every result of `p` satisfies `Q`, from whatever state it is run. -/
def Returns (p : EStateM ε σ α) (Q : α → Prop) : Prop := ∀ s a s', p.run s = .ok a s' → Q a

theorem Returns.pure {Q : α → Prop} {a : α} (h : Q a) :
    Returns (Pure.pure a : EStateM ε σ α) Q := by
  intro s b s' hrun
  cases hrun
  exact h

theorem Returns.bind {p : EStateM ε σ α} {f : α → EStateM ε σ β} {P : α → Prop} {Q : β → Prop}
    (hp : Returns p P) (hf : ∀ a, P a → Returns (f a) Q) : Returns (p >>= f) Q := by
  intro s b s'' hrun
  obtain ⟨a, s', ha, hb⟩ := run_bind_ok_iff.mp hrun
  exact hf a (hp s a s' ha) s' b s'' hb

/-- A step whose result the later ones do not need. -/
theorem Returns.then {p : EStateM ε σ α} {f : α → EStateM ε σ β} {Q : β → Prop}
    (hf : ∀ a, Returns (f a) Q) : Returns (p >>= f) Q :=
  Returns.bind (P := fun _ => True) (fun _ _ _ _ => True.intro) fun a _ => hf a

theorem Returns.throw (e : ε) (Q : α → Prop) : Returns (throw e : EStateM ε σ α) Q := by
  intro s a s' hrun
  cases hrun

theorem Returns.map {p : EStateM ε σ α} {f : α → β} {Q : β → Prop} (h : ∀ a, Q (f a)) :
    Returns (p >>= fun a => Pure.pure (f a)) Q :=
  Returns.then fun a => Returns.pure (h a)

theorem Returns.ite {c : Prop} [Decidable c] {p q : EStateM ε σ α} {Q : α → Prop}
    (hp : c → Returns p Q) (hq : ¬ c → Returns q Q) : Returns (if c then p else q) Q := by
  by_cases h : c
  · rw [if_pos h]
    exact hp h
  · rw [if_neg h]
    exact hq h

theorem Returns.ofExcept {x : Except ε α} {Q : α → Prop} (h : ∀ a, x = .ok a → Q a) :
    Returns (Wire.ofExcept x : EStateM ε σ α) Q :=
  fun _ a _ hrun => h a (ofExcept_ok_iff.mp hrun).1

theorem Returns.repeatM {p : EStateM ε σ α} {Q : α → Prop} (hp : Returns p Q) :
    ∀ n, Returns (Wire.repeatM p n) fun as => ∀ a ∈ as, Q a
  | 0 => Returns.pure fun _ h => nomatch h
  | n + 1 => hp.bind fun _ ha => (Returns.repeatM hp n).bind fun _ has =>
      Returns.pure (List.forall_mem_cons.mpr ⟨ha, has⟩)

/-- A repetition returns as many results as it has rounds. -/
theorem Returns.repeatM_length (p : EStateM ε σ α) :
    ∀ n, Returns (Wire.repeatM p n) fun as => as.length = n
  | 0 => Returns.pure rfl
  | n + 1 => Returns.then fun _ => (Returns.repeatM_length p n).bind fun _ has =>
      Returns.pure (congrArg Nat.succ has)

/-! ## Cursors -/

/-- A state that stands somewhere in a byte string. -/
class Cursor (σ : Type) where
  /-- The unread bytes. -/
  rest : σ → List UInt8
  /-- The state `n` bytes further on. -/
  advance : Nat → σ → σ
  rest_advance : ∀ n s, rest (advance n s) = (rest s).drop n
  advance_zero : ∀ s, advance 0 s = s
  advance_advance : ∀ m n s, advance n (advance m s) = advance (m + n) s

export Cursor (rest advance)

attribute [simp] Cursor.rest_advance Cursor.advance_zero Cursor.advance_advance

variable [Cursor σ]

theorem rest_advance_of_append {s : σ} {bs tl : List UInt8} (h : rest s = bs ++ tl) :
    rest (advance bs.length s) = tl := by
  rw [Cursor.rest_advance, h, List.drop_left]

/-! ## From the bytes to the result -/

/-- From every state satisfying `P` whose unread bytes are `bs ++ tl`, the
computation returns `a` and has read exactly `bs`. -/
def Decodes (P : σ → Prop) (p : EStateM ε σ α) (bs : List UInt8) (a : α)
    (tl : List UInt8) : Prop :=
  ∀ s, P s → rest s = bs ++ tl → p.run s = .ok a (advance bs.length s)

theorem Decodes.pure (P : σ → Prop) (a : α) (tl : List UInt8) :
    Decodes P (Pure.pure a : EStateM ε σ α) [] a tl := by
  intro s _ _
  simp

theorem Decodes.weaken {P Q : σ → Prop} {p : EStateM ε σ α} {bs tl : List UInt8} {a : α}
    (hp : Decodes Q p bs a tl) (hPQ : ∀ s, P s → Q s) : Decodes P p bs a tl :=
  fun s hP hrest => hp s (hPQ s hP) hrest

/-- Sequencing: the second decoder starts where the first stopped. -/
theorem Decodes.bind {P Q : σ → Prop} {p : EStateM ε σ α} {f : α → EStateM ε σ β}
    {bs cs tl : List UInt8} {a : α} {b : β}
    (hp : Decodes P p bs a (cs ++ tl))
    (hPQ : ∀ s, P s → rest s = bs ++ (cs ++ tl) → Q (advance bs.length s))
    (hf : Decodes Q (f a) cs b tl) :
    Decodes P (p >>= f) (bs ++ cs) b tl := by
  intro s hP hrest
  rw [List.append_assoc] at hrest
  rw [run_bind_of_ok (hp s hP hrest),
    hf _ (hPQ s hP hrest) (rest_advance_of_append hrest), Cursor.advance_advance,
    List.length_append]

/-- Sequencing with a second half that reads nothing. -/
theorem Decodes.bind_nil {P Q : σ → Prop} {p : EStateM ε σ α} {f : α → EStateM ε σ β}
    {bs tl : List UInt8} {a : α} {b : β} (hp : Decodes P p bs a tl)
    (hPQ : ∀ s, P s → rest s = bs ++ tl → Q (advance bs.length s))
    (hf : Decodes Q (f a) [] b tl) : Decodes P (p >>= f) bs b tl := by
  have h := Decodes.bind hp hPQ hf
  rwa [List.append_nil] at h

/-- Sequencing with a first half that reads nothing. -/
theorem Decodes.nil_bind {P : σ → Prop} {p : EStateM ε σ α} {f : α → EStateM ε σ β}
    {bs tl : List UInt8} {a : α} {b : β} (hp : Decodes P p [] a (bs ++ tl))
    (hf : Decodes P (f a) bs b tl) : Decodes P (p >>= f) bs b tl := by
  intro s hP hrest
  have hrun := hp s hP hrest
  rw [List.length_nil, Cursor.advance_zero] at hrun
  rw [run_bind_of_ok hrun]
  exact hf s hP hrest

/-- A decoder followed by a pure function of its result. -/
theorem Decodes.map {P : σ → Prop} {p : EStateM ε σ α} {bs tl : List UInt8} {a : α}
    (hp : Decodes P p bs a tl) (f : α → β) :
    Decodes P (p >>= fun x => Pure.pure (f x)) bs (f a) tl := by
  intro s hP hrest
  rw [run_bind_of_ok (hp s hP hrest)]
  rfl

/-- A decoder that first looks at its state. -/
theorem Decodes.get_bind {P : σ → Prop} {f : σ → EStateM ε σ β} {bs tl : List UInt8} {b : β}
    (hf : ∀ s, P s → rest s = bs ++ tl → Decodes P (f s) bs b tl) :
    Decodes P (get >>= f) bs b tl := by
  intro s hP hrest
  have hget : (get : EStateM ε σ σ).run s = .ok s s := rfl
  rw [run_bind_of_ok hget]
  exact hf s hP hrest s hP hrest

/-- A result that needs no bytes. -/
theorem Decodes.ofExcept (P : σ → Prop) (a : α) (tl : List UInt8) :
    Decodes P (Wire.ofExcept (.ok a) : EStateM ε σ α) [] a tl := Decodes.pure P a tl

/-- A result computed without reading, passed on. -/
theorem Decodes.ofExcept_bind {P : σ → Prop} {x : Except ε α} {f : α → EStateM ε σ β}
    {bs tl : List UInt8} {a : α} {b : β} (hx : x = .ok a) (hf : Decodes P (f a) bs b tl) :
    Decodes P (Wire.ofExcept x >>= f) bs b tl := by
  subst hx
  exact hf

/-- Sequencing when nothing is asked of the states. -/
theorem Decodes.seq {p : EStateM ε σ α} {f : α → EStateM ε σ β} {bs cs tl : List UInt8}
    {a : α} {b : β} (hp : Decodes (fun _ => True) p bs a (cs ++ tl))
    (hf : Decodes (fun _ => True) (f a) cs b tl) :
    Decodes (fun _ => True) (p >>= f) (bs ++ cs) b tl :=
  Decodes.bind hp (fun _ _ _ => trivial) hf

/-- Repetition: one encoding after another. The tail each item sees is the rest
of the encodings and `tl`. -/
theorem Decodes.repeatM {P : σ → Prop} (hP : ∀ n s, P s → P (advance n s))
    {p : EStateM ε σ α} {enc : α → List UInt8} :
    ∀ {as : List α} {tl : List UInt8},
      (∀ a ∈ as, ∀ tl', Decodes P p (enc a) a tl') →
      Decodes P (repeatM p as.length) (as.flatMap enc) as tl
  | [], tl, _ => Decodes.pure P [] tl
  | a :: as, tl, h => by
      have head := h a List.mem_cons_self (as.flatMap enc ++ tl)
      have tail : Decodes P (Wire.repeatM p as.length) (as.flatMap enc) as tl :=
        Decodes.repeatM hP fun x hx => h x (List.mem_cons_of_mem _ hx)
      exact Decodes.bind head (fun s hs _ => hP _ s hs) (tail.map (a :: ·))

/-- Repetition over keys: each item is read back as a function of its key. -/
theorem Decodes.repeatM_map {κ : Type} {P : σ → Prop} (hP : ∀ n s, P s → P (advance n s))
    {p : EStateM ε σ α} {enc : κ → List UInt8} (value : κ → α) (ks : List κ) :
    ∀ tl : List UInt8, (∀ k ∈ ks, ∀ tl', Decodes P p (enc k) (value k) tl') →
      Decodes P (Wire.repeatM p ks.length) (ks.flatMap enc) (ks.map value) tl := by
  induction ks with
  | nil =>
      intro tl _
      exact Decodes.pure P [] tl
  | cons k ks ih =>
      intro tl h
      have head := h k List.mem_cons_self (ks.flatMap enc ++ tl)
      have tail := ih tl fun x hx => h x (List.mem_cons_of_mem _ hx)
      exact Decodes.bind head (fun s hs _ => hP _ s hs) (tail.map (value k :: ·))

/-! ## From the result to the bytes -/

/-- Every successful run reads a prefix `bs` of the unread bytes that is related
to its result, and changes nothing of the state but its place. -/
def Reads (p : EStateM ε σ α) (R : List UInt8 → α → Prop) : Prop :=
  ∀ s a s', p.run s = .ok a s' →
    ∃ bs, rest s = bs ++ rest s' ∧ s' = advance bs.length s ∧ R bs a

theorem Reads.mono {p : EStateM ε σ α} {R S : List UInt8 → α → Prop}
    (h : Reads p R) (hRS : ∀ bs a, R bs a → S bs a) : Reads p S := by
  intro s a s' hrun
  obtain ⟨bs, hrest, hs', hR⟩ := h s a s' hrun
  exact ⟨bs, hrest, hs', hRS bs a hR⟩

theorem Reads.pure (a : α) : Reads (Pure.pure a : EStateM ε σ α) (fun bs b => bs = [] ∧ b = a) := by
  intro s b s' hrun
  cases hrun
  exact ⟨[], rfl, by simp, rfl, rfl⟩

theorem Reads.bind {p : EStateM ε σ α} {f : α → EStateM ε σ β}
    {R : List UInt8 → α → Prop} {S : α → List UInt8 → β → Prop}
    (hp : Reads p R) (hf : ∀ a, Reads (f a) (S a)) :
    Reads (p >>= f) (fun bs b => ∃ a cs ds, bs = cs ++ ds ∧ R cs a ∧ S a ds b) := by
  intro s b s'' hrun
  obtain ⟨a, s', hx, hy⟩ := run_bind_ok_iff.mp hrun
  obtain ⟨cs, hcs, rfl, hR⟩ := hp s a s' hx
  obtain ⟨ds, hds, rfl, hS⟩ := hf a _ b s'' hy
  refine ⟨cs ++ ds, ?_, ?_, a, cs, ds, rfl, hR, hS⟩
  · rw [List.append_assoc, ← hds, hcs]
  · rw [Cursor.advance_advance, List.length_append]

theorem Reads.map {p : EStateM ε σ α} {R : List UInt8 → α → Prop} (hp : Reads p R)
    (f : α → β) :
    Reads (p >>= fun x => Pure.pure (f x)) (fun bs b => ∃ a, b = f a ∧ R bs a) := by
  intro s b s' hrun
  obtain ⟨a, t, hx, hy⟩ := run_bind_ok_iff.mp hrun
  obtain ⟨bs, hrest, ht, hR⟩ := hp s a t hx
  cases hy
  exact ⟨bs, hrest, ht, a, rfl, hR⟩

/-- Sequencing after a read of a known encoding. -/
theorem Reads.prepend {p : EStateM ε σ α} {f : α → EStateM ε σ β} {enc : α → List UInt8}
    {T : List UInt8 → β → Prop} (hp : Reads p fun bs a => bs = enc a)
    (hf : ∀ a, Reads (f a) fun bs b => T (enc a ++ bs) b) : Reads (p >>= f) T := by
  refine (hp.bind hf).mono ?_
  rintro bs b ⟨a, cs, ds, rfl, rfl, hT⟩
  exact hT

theorem Reads.get_bind {f : σ → EStateM ε σ β} {R : List UInt8 → β → Prop}
    (hf : ∀ s, Reads (f s) R) : Reads (get >>= f) R := by
  intro s b s' hrun
  exact hf s s b s' hrun

theorem Reads.ofExcept (x : Except ε α) : Reads (Wire.ofExcept x : EStateM ε σ α)
    (fun bs a => bs = [] ∧ x = .ok a) := by
  intro s a s' hrun
  cases x with
  | error e => cases hrun
  | ok b =>
      cases hrun
      exact ⟨[], rfl, by simp, rfl, rfl⟩

/-- Every successful run reads at least `n` bytes. -/
def Consumes (n : Nat) (p : EStateM ε σ α) : Prop := Reads p fun bs _ => n ≤ bs.length

theorem Reads.consumes {n : Nat} {p : EStateM ε σ α} {R : List UInt8 → α → Prop} (h : Reads p R)
    (hn : ∀ bs a, R bs a → n ≤ bs.length) : Consumes n p := h.mono hn

theorem Consumes.bind {m n : Nat} {p : EStateM ε σ α} {f : α → EStateM ε σ β}
    (hp : Consumes m p) (hf : ∀ a, Consumes n (f a)) : Consumes (m + n) (p >>= f) := by
  refine (Reads.bind hp hf).consumes ?_
  rintro bs b ⟨a, cs, ds, rfl, hcs, hds⟩
  rw [List.length_append]
  exact Nat.add_le_add hcs hds

theorem Consumes.get_bind {n : Nat} {f : σ → EStateM ε σ β} (hf : ∀ s, Consumes n (f s)) :
    Consumes n (get >>= f) := Reads.get_bind hf

theorem Consumes.pure (a : α) : Consumes 0 (Pure.pure a : EStateM ε σ α) :=
  (Reads.pure a).consumes fun _ _ _ => Nat.zero_le _

theorem Consumes.ofExcept (x : Except ε α) : Consumes 0 (Wire.ofExcept x : EStateM ε σ α) :=
  (Reads.ofExcept x).consumes fun _ _ _ => Nat.zero_le _

/-- With `n` unread bytes the computation succeeds, and it reads exactly those. -/
def TotalOn (n : Nat) (p : EStateM ε σ α) : Prop :=
  ∀ s, n ≤ (rest s).length → ∃ a, p.run s = .ok a (advance n s)

theorem TotalOn.pure (a : α) : TotalOn 0 (Pure.pure a : EStateM ε σ α) := by
  intro s _
  exact ⟨a, by simp⟩

theorem TotalOn.bind {m n : Nat} {p : EStateM ε σ α} {f : α → EStateM ε σ β}
    (hp : TotalOn m p) (hf : ∀ a, TotalOn n (f a)) : TotalOn (m + n) (p >>= f) := by
  intro s hlen
  obtain ⟨a, ha⟩ := hp s (by omega)
  have hrest : n ≤ (rest (advance m s)).length := by
    rw [Cursor.rest_advance, List.length_drop]
    omega
  obtain ⟨b, hb⟩ := hf a (advance m s) hrest
  refine ⟨b, ?_⟩
  rw [run_bind_of_ok ha, hb, Cursor.advance_advance]

theorem TotalOn.map {n : Nat} {p : EStateM ε σ α} (hp : TotalOn n p) (f : α → β) :
    TotalOn n (p >>= fun x => Pure.pure (f x)) := by
  have h := hp.bind fun a => TotalOn.pure (f a)
  rwa [Nat.add_zero] at h

/-- Blocks that are the encodings of the items make up the encoding of the list. -/
theorem flatten_blocks {enc : α → List UInt8} {blocks : List (List UInt8)} {as : List α}
    (h : List.Forall₂ (fun bs a => bs = enc a) blocks as) : blocks.flatten = as.flatMap enc := by
  induction h with
  | nil => rfl
  | cons hblock _ ih => rw [List.flatten_cons, List.flatMap_cons, hblock, ih]

/-- A repetition reads one block per item. -/
theorem Reads.repeatM {p : EStateM ε σ α} {R : List UInt8 → α → Prop} (hp : Reads p R) :
    ∀ n, Reads (repeatM p n) (fun bs as => as.length = n ∧
      ∃ blocks, bs = blocks.flatten ∧ List.Forall₂ R blocks as)
  | 0 => (Reads.pure []).mono fun bs as h => by
      obtain ⟨rfl, rfl⟩ := h
      exact ⟨rfl, [], rfl, .nil⟩
  | n + 1 => by
      have tail := Reads.repeatM hp n
      refine (hp.bind fun a => tail.map (a :: ·)).mono ?_
      rintro bs as ⟨a, cs, ds, rfl, hR, rest, rfl, hlen, blocks, rfl, hall⟩
      exact ⟨by simp [hlen], cs :: blocks, by simp, .cons hR hall⟩

end Wire
