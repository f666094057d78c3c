import Cildec.Lib.Run

/-!
# Parsers and the grammars they accept

A `Grammar` says which bytes spell which values. A parser may also ask how many
bytes are left before it reads on; each such place is a `Mark` of the spelling.
`Accepts P p R` says that, from the states in `P`, `p` accepts exactly the
spellings of `R` whose marks have room. Its rules follow the shape of the
parser, so that the grammar of a parser is read off its definition.

* `Accepts.bind`, `Accepts.repeatM`: the composition rules;
* `AcceptsAhead`: a parser that stops in front of a byte it has looked at;
* `Grammar.Spells`: a spelling that needs nothing after it.
-/

namespace Wire

variable {ε σ α β γ : Type}

/-- A place in a spelling that asks for `need` bytes after it, of which the
spelling has `after`. -/
structure Mark where
  need : Nat
  after : Nat
  deriving DecidableEq, Repr

/-- A mark of a spelling that `n` more bytes of a longer one follow. -/
def Mark.shift (n : Nat) (m : Mark) : Mark := ⟨m.need, m.after + n⟩

/-- With `t` bytes after the spelling, every mark has room. -/
def Fits (t : Nat) (ms : List Mark) : Prop := ∀ m ∈ ms, m.need ≤ m.after + t

instance (t : Nat) (ms : List Mark) : Decidable (Fits t ms) :=
  inferInstanceAs (Decidable (∀ m ∈ ms, m.need ≤ m.after + t))

@[simp] theorem fits_nil (t : Nat) : Fits t [] := fun _ h => nomatch h

theorem fits_append {t : Nat} {ms ns : List Mark} :
    Fits t (ms ++ ns) ↔ Fits t ms ∧ Fits t ns := List.forall_mem_append

theorem fits_shift {t n : Nat} {ms : List Mark} :
    Fits t (ms.map (Mark.shift n)) ↔ Fits (n + t) ms := by
  simp only [Fits, List.forall_mem_map, Mark.shift, Nat.add_assoc]

theorem Fits.mono {t u : Nat} {ms : List Mark} (h : Fits t ms) (htu : t ≤ u) : Fits u ms :=
  fun m hm => Nat.le_trans (h m hm) (Nat.add_le_add_left htu _)

/-- Which bytes spell which values, and with which marks. -/
abbrev Grammar (α : Type) := α → List UInt8 → List Mark → Prop

namespace Grammar

/-- Nothing is spelled. -/
def none : Grammar α := fun _ _ _ => False

/-- No bytes spell `a`. -/
def pure (a : α) : Grammar α := fun b bs ms => b = a ∧ bs = [] ∧ ms = []

/-- One spelling after another, the second depending on the first value. -/
def bind (R : Grammar α) (S : α → Grammar β) : Grammar β := fun b bs ms =>
  ∃ a cs ds ks ns, R a cs ks ∧ S a b ds ns ∧ bs = cs ++ ds ∧
    ms = ks.map (Mark.shift ds.length) ++ ns

def map (f : α → β) (R : Grammar α) : Grammar β := fun b bs ms => ∃ a, b = f a ∧ R a bs ms

/-- The values a partial function makes of those of `R`. -/
def filterMap (f : α → Option β) (R : Grammar α) : Grammar β := fun b bs ms =>
  ∃ a, f a = some b ∧ R a bs ms

/-- Spellings without marks. -/
def unmarked (L : α → List UInt8 → Prop) : Grammar α := fun a bs ms => L a bs ∧ ms = []

/-- A value that is made with its own spelling. -/
def sourced (f : List UInt8 → α → β) (R : Grammar α) : Grammar β := fun b bs ms =>
  ∃ a, b = f bs a ∧ R a bs ms

/-- A mark in front of the spelling. -/
def need (n : Nat) (R : Grammar α) : Grammar α := fun a bs ms =>
  ∃ ns, R a bs ns ∧ ms = ⟨n, bs.length⟩ :: ns

/-- Only under a condition. -/
def guard (c : Prop) (R : Grammar α) : Grammar α := fun a bs ms => c ∧ R a bs ms

/-- `n` spellings in a row. -/
def repeated (R : Grammar α) : Nat → Grammar (List α)
  | 0 => Grammar.pure []
  | n + 1 => R.bind fun a => (repeated R n).map (a :: ·)

/-- A part whose spelling depends on the byte that follows it. -/
def ahead (R : α → List UInt8 → Option UInt8 → Prop) (S : α → Grammar β) : Grammar β :=
  fun b bs ms => ∃ a cs ds, R a cs ds.head? ∧ S a b ds ms ∧ bs = cs ++ ds

theorem map_map (f : α → β) (g : β → γ) (R : Grammar α) :
    (R.map f).map g = R.map fun a => g (f a) := by
  funext c bs ms
  refine propext ⟨?_, ?_⟩
  · rintro ⟨_, rfl, a, rfl, h⟩
    exact ⟨a, rfl, h⟩
  · rintro ⟨a, rfl, h⟩
    exact ⟨f a, rfl, a, rfl, h⟩

theorem bind_map (R : Grammar α) (S : α → Grammar β) (g : β → γ) :
    (R.bind S).map g = R.bind fun a => (S a).map g := by
  funext c bs ms
  refine propext ⟨?_, ?_⟩
  · rintro ⟨b, rfl, a, cs, ds, ks, ns, hcs, hds, rfl, rfl⟩
    exact ⟨a, cs, ds, ks, ns, hcs, ⟨b, rfl, hds⟩, rfl, rfl⟩
  · rintro ⟨a, cs, ds, ks, ns, hcs, ⟨b, rfl, hds⟩, rfl, rfl⟩
    exact ⟨b, rfl, a, cs, ds, ks, ns, hcs, hds, rfl, rfl⟩

theorem ahead_map (R : α → List UInt8 → Option UInt8 → Prop) (S : α → Grammar β) (g : β → γ) :
    (Grammar.ahead R S).map g = Grammar.ahead R fun a => (S a).map g := by
  funext c bs ms
  refine propext ⟨?_, ?_⟩
  · rintro ⟨b, rfl, a, cs, ds, hcs, hds, rfl⟩
    exact ⟨a, cs, ds, hcs, ⟨b, rfl, hds⟩, rfl⟩
  · rintro ⟨a, cs, ds, hcs, ⟨b, rfl, hds⟩, rfl⟩
    exact ⟨b, rfl, a, cs, ds, hcs, hds, rfl⟩

/-- No spelling is empty. -/
def Nonempty (R : Grammar α) : Prop := ∀ a bs ms, R a bs ms → 0 < bs.length

theorem Nonempty.bind_left {R : Grammar α} (h : R.Nonempty) (S : α → Grammar β) :
    (R.bind S).Nonempty := by
  rintro b bs ms ⟨a, cs, ds, ks, ns, hR, _, rfl, _⟩
  have hcs := h a cs ks hR
  rw [List.length_append]
  omega

theorem Nonempty.map {R : Grammar α} (h : R.Nonempty) (f : α → β) : (R.map f).Nonempty := by
  rintro b bs ms ⟨a, _, hR⟩
  exact h a bs ms hR

theorem Nonempty.ahead {R : α → List UInt8 → Option UInt8 → Prop} {S : α → Grammar β}
    (h : ∀ a, (S a).Nonempty) : (ahead R S).Nonempty := by
  rintro b bs ms ⟨a, cs, ds, _, hS, rfl⟩
  have hds := h a b ds ms hS
  rw [List.length_append]
  omega

theorem Nonempty.filterMap {R : Grammar α} (h : R.Nonempty) (f : α → Option β) :
    (R.filterMap f).Nonempty := by
  rintro b bs ms ⟨a, _, hR⟩
  exact h a bs ms hR

theorem Nonempty.unmarked {L : α → List UInt8 → Prop} (h : ∀ a bs, L a bs → 0 < bs.length) :
    (Grammar.unmarked L).Nonempty := by
  rintro a bs ms ⟨hL, _⟩
  exact h a bs hL

theorem Nonempty.none : (none : Grammar α).Nonempty := fun _ _ _ h => h.elim

/-- Repeated spellings that are not empty take a byte each. -/
theorem repeated_length {R : Grammar α} (h : R.Nonempty) :
    ∀ {n : Nat} {as : List α} {bs : List UInt8} {ms : List Mark},
      R.repeated n as bs ms → as.length = n ∧ n ≤ bs.length
  | 0, as, bs, ms, ⟨has, _, _⟩ => ⟨has ▸ rfl, Nat.zero_le _⟩
  | n + 1, as, bs, ms, ⟨a, cs, ds, ks, ns, hR, ⟨as', has, hrest⟩, hbs, _⟩ => by
      subst has
      subst hbs
      obtain ⟨hlen, hle⟩ := repeated_length h hrest
      have hcs := h a cs ks hR
      rw [List.length_append, List.length_cons]
      omega

/-! ## Inclusion, and what holds of every value -/

/-- Every spelling of `R` is one of `S`. -/
def Le (R S : Grammar α) : Prop := ∀ a bs ms, R a bs ms → S a bs ms

theorem Le.refl (R : Grammar α) : R.Le R := fun _ _ _ h => h

theorem Le.none (R : Grammar α) : Grammar.none.Le R := fun _ _ _ h => h.elim

theorem Le.bind {R R' : Grammar α} {S S' : α → Grammar β} (hR : R.Le R')
    (hS : ∀ a, (S a).Le (S' a)) : (R.bind S).Le (R'.bind S') := by
  rintro b bs ms ⟨a, cs, ds, ks, ns, hcs, hds, rfl, rfl⟩
  exact ⟨a, cs, ds, ks, ns, hR a cs ks hcs, hS a b ds ns hds, rfl, rfl⟩

theorem Le.map {R R' : Grammar α} (hR : R.Le R') (f : α → β) : (R.map f).Le (R'.map f) := by
  rintro b bs ms ⟨a, rfl, h⟩
  exact ⟨a, rfl, hR a bs ms h⟩

theorem Le.sourced {R R' : Grammar α} (hR : R.Le R') (f : List UInt8 → α → β) :
    (R.sourced f).Le (R'.sourced f) := by
  rintro b bs ms ⟨a, rfl, h⟩
  exact ⟨a, rfl, hR a bs ms h⟩

theorem Le.guard {c c' : Prop} {R R' : Grammar α} (hc : c → c') (hR : R.Le R') :
    (R.guard c).Le (R'.guard c') := by
  rintro a bs ms ⟨h, hR'⟩
  exact ⟨hc h, hR a bs ms hR'⟩

theorem Le.ahead {R : α → List UInt8 → Option UInt8 → Prop} {S S' : α → Grammar β}
    (hS : ∀ a, (S a).Le (S' a)) : (Grammar.ahead R S).Le (Grammar.ahead R S') := by
  rintro b bs ms ⟨a, cs, ds, hcs, hds, rfl⟩
  exact ⟨a, cs, ds, hcs, hS a b ds ms hds, rfl⟩

theorem Le.ite {c : Prop} [Decidable c] {R R' S S' : Grammar α} (hR : R.Le R') (hS : S.Le S') :
    (if c then R else S).Le (if c then R' else S') := by
  by_cases h : c
  · rw [if_pos h, if_pos h]
    exact hR
  · rw [if_neg h, if_neg h]
    exact hS

theorem Le.repeated {R R' : Grammar α} (hR : R.Le R') :
    ∀ n, (R.repeated n).Le (R'.repeated n)
  | 0 => Le.refl _
  | n + 1 => hR.bind fun a => (Le.repeated hR n).map (a :: ·)

/-- `Q` holds of every value `R` spells and its bytes. -/
def Each (R : Grammar α) (Q : α → List UInt8 → Prop) : Prop := ∀ a bs ms, R a bs ms → Q a bs

theorem Each.mono {R : Grammar α} {Q Q' : α → List UInt8 → Prop} (hR : R.Each Q)
    (hQ : ∀ a bs, Q a bs → Q' a bs) : R.Each Q' := fun a bs ms h => hQ a bs (hR a bs ms h)

theorem Each.none (Q : α → List UInt8 → Prop) : (none : Grammar α).Each Q :=
  fun _ _ _ h => h.elim

theorem Each.pure {Q : α → List UInt8 → Prop} {a : α} (h : Q a []) :
    (Grammar.pure a).Each Q := by
  rintro b bs ms ⟨rfl, rfl, _⟩
  exact h

theorem Each.trivial (R : Grammar α) : R.Each fun _ _ => True := fun _ _ _ _ => True.intro

theorem Each.bind {R : Grammar α} {S : α → Grammar β} {Q : α → List UInt8 → Prop}
    {Q' : β → List UInt8 → Prop} (hR : R.Each Q)
    (hS : ∀ a cs, Q a cs → (S a).Each fun b ds => Q' b (cs ++ ds)) : (R.bind S).Each Q' := by
  rintro b bs ms ⟨a, cs, ds, ks, ns, hcs, hds, rfl, _⟩
  exact hS a cs (hR a cs ks hcs) b ds ns hds

theorem Each.map {R : Grammar α} {Q : α → List UInt8 → Prop} {Q' : β → List UInt8 → Prop}
    {f : α → β} (hR : R.Each Q) (hf : ∀ a bs, Q a bs → Q' (f a) bs) : (R.map f).Each Q' := by
  rintro b bs ms ⟨a, rfl, h⟩
  exact hf a bs (hR a bs ms h)

theorem Each.sourced {R : Grammar α} {Q : α → List UInt8 → Prop} {Q' : β → List UInt8 → Prop}
    {f : List UInt8 → α → β} (hR : R.Each Q) (hf : ∀ a bs, Q a bs → Q' (f bs a) bs) :
    (R.sourced f).Each Q' := by
  rintro b bs ms ⟨a, rfl, h⟩
  exact hf a bs (hR a bs ms h)

theorem Each.guard {c : Prop} {R : Grammar α} {Q : α → List UInt8 → Prop} (hR : R.Each Q) :
    (R.guard c).Each Q := fun a bs ms h => hR a bs ms h.2

theorem Each.ahead {R : α → List UInt8 → Option UInt8 → Prop} {S : α → Grammar β}
    {Q : β → List UInt8 → Prop} (hS : ∀ a, (S a).Each fun b ds => ∀ cs, Q b (cs ++ ds)) :
    (Grammar.ahead R S).Each Q := by
  rintro b bs ms ⟨a, cs, ds, _, hds, rfl⟩
  exact hS a b ds ms hds cs

/-- Where the bytes do not matter. -/
theorem Each.ahead_value {R : α → List UInt8 → Option UInt8 → Prop} {S : α → Grammar β}
    {Q : β → Prop} (hS : ∀ a, (S a).Each fun b _ => Q b) :
    (Grammar.ahead R S).Each fun b _ => Q b :=
  Each.ahead fun a => (hS a).mono fun _ _ h _ => h

theorem Each.ite {c : Prop} [Decidable c] {R S : Grammar α} {Q : α → List UInt8 → Prop}
    (hR : R.Each Q) (hS : S.Each Q) : (if c then R else S).Each Q := by
  by_cases h : c
  · rw [if_pos h]
    exact hR
  · rw [if_neg h]
    exact hS

/-- What is read one after another all satisfies what each item does. -/
theorem Each.repeated {R : Grammar α} {Q : α → Prop} (h : R.Each fun a _ => Q a) :
    ∀ count, (R.repeated count).Each fun as _ => ∀ a ∈ as, Q a
  | 0 => Each.pure fun _ hmem => absurd hmem List.not_mem_nil
  | count + 1 => Each.bind h fun a _ ha => by
      refine Each.map (Each.repeated h count) fun as _ has => ?_
      exact List.forall_mem_cons.mpr ⟨ha, has⟩

/-! ## Parts found in the bytes of a value -/

section Found

/-- Each of the items has a piece of `bs` that satisfies `P`. -/
def FoundIn {ι : Type} (P : ι → List UInt8 → Prop) (items : List ι) (bs : List UInt8) : Prop :=
  ∀ i ∈ items, ∃ cs, cs <:+: bs ∧ P i cs

variable {ι : Type} {P : ι → List UInt8 → Prop}

@[simp] theorem foundIn_nil (bs : List UInt8) : FoundIn P [] bs := fun _ h => nomatch h

theorem foundIn_append {is js : List ι} {bs : List UInt8} :
    FoundIn P (is ++ js) bs ↔ FoundIn P is bs ∧ FoundIn P js bs := List.forall_mem_append

theorem foundIn_self {i : ι} {bs : List UInt8} (h : P i bs) : FoundIn P [i] bs := by
  intro j hj
  obtain rfl := List.mem_singleton.mp hj
  exact ⟨bs, List.infix_rfl, h⟩

theorem FoundIn.mono {is : List ι} {bs bs' : List UInt8} (h : FoundIn P is bs)
    (hbs : bs <:+: bs') : FoundIn P is bs' := by
  intro i hi
  obtain ⟨cs, hcs, hP⟩ := h i hi
  exact ⟨cs, hcs.trans hbs, hP⟩

theorem FoundIn.left {is : List ι} {cs : List UInt8} (h : FoundIn P is cs) (ds : List UInt8) :
    FoundIn P is (cs ++ ds) := h.mono (List.prefix_append cs ds).isInfix

theorem FoundIn.right {is : List ι} {ds : List UInt8} (h : FoundIn P is ds) (cs : List UInt8) :
    FoundIn P is (cs ++ ds) := h.mono (List.suffix_append cs ds).isInfix

/-- The items of every value of `R` are found in its bytes. -/
def Finds (P : ι → List UInt8 → Prop) (R : Grammar α) (items : α → List ι) : Prop :=
  R.Each fun a bs => FoundIn P (items a) bs

variable {items : α → List ι} {items' : β → List ι}

theorem Finds.nil (R : Grammar α) (items : α → List ι) (h : ∀ a, items a = []) :
    Finds P R items := by
  intro a bs ms _
  rw [h]
  exact foundIn_nil bs

theorem Finds.map {R : Grammar α} {f : α → β} (h : Finds P R items)
    (hf : ∀ a, items' (f a) = items a) : Finds P (R.map f) items' := by
  refine Each.map h fun a bs ha => ?_
  rwa [hf]

/-- A first part that has no items. -/
theorem Finds.after {R : Grammar α} {S : α → Grammar β} (hS : ∀ a, Finds P (S a) items') :
    Finds P (R.bind S) items' :=
  Each.bind (Each.trivial R) fun a cs _ => (hS a).mono fun _ _ h => h.right cs

theorem Finds.ahead {R : α → List UInt8 → Option UInt8 → Prop} {S : α → Grammar β}
    (hS : ∀ a, Finds P (S a) items') : Finds P (Grammar.ahead R S) items' :=
  Each.ahead fun a => (hS a).mono fun _ _ h cs => h.right cs

theorem Finds.repeated {R : Grammar α} (h : Finds P R items) :
    ∀ n, Finds P (R.repeated n) fun as => as.flatMap items
  | 0 => Each.pure (foundIn_nil [])
  | n + 1 => Each.bind h fun a cs ha => Each.map (Finds.repeated h n) fun as ds has => by
      show FoundIn P ((a :: as).flatMap items) (cs ++ ds)
      rw [List.flatMap_cons]
      exact foundIn_append.mpr ⟨ha.left ds, has.right cs⟩

end Found

/-! ## Spellings that need nothing after them -/

/-- Every mark of `bs` has room in `bs` itself. -/
def Roomy (R : Grammar α) (bs : List UInt8) : Prop := ∀ a ms, R a bs ms → Fits 0 ms

/-- `bs` spells `a` and asks for no byte after it. -/
def Spells (R : Grammar α) (a : α) (bs : List UInt8) : Prop := ∃ ms, R a bs ms ∧ Fits 0 ms

theorem Spells.pure (a : α) : (Grammar.pure a).Spells a [] :=
  ⟨[], ⟨rfl, rfl, rfl⟩, fits_nil 0⟩

theorem Spells.bind {R : Grammar α} {S : α → Grammar β} {a : α} {b : β}
    {cs ds : List UInt8} (hR : R.Spells a cs) (hS : (S a).Spells b ds) :
    (R.bind S).Spells b (cs ++ ds) := by
  obtain ⟨ks, hR, hks⟩ := hR
  obtain ⟨ns, hS, hns⟩ := hS
  refine ⟨_, ⟨a, cs, ds, ks, ns, hR, hS, rfl, rfl⟩, fits_append.mpr ⟨?_, hns⟩⟩
  exact fits_shift.mpr (hks.mono (Nat.zero_le _))

theorem Spells.map {R : Grammar α} {a : α} {bs : List UInt8} (h : R.Spells a bs) (f : α → β) :
    (R.map f).Spells (f a) bs := by
  obtain ⟨ms, hR, hfits⟩ := h
  exact ⟨ms, ⟨a, rfl, hR⟩, hfits⟩

theorem Spells.guard {c : Prop} {R : Grammar α} {a : α} {bs : List UInt8} (hc : c)
    (h : R.Spells a bs) : (R.guard c).Spells a bs := by
  obtain ⟨ms, hR, hfits⟩ := h
  exact ⟨ms, ⟨hc, hR⟩, hfits⟩

theorem Spells.ahead {R : α → List UInt8 → Option UInt8 → Prop} {S : α → Grammar β} {a : α}
    {b : β} {cs ds : List UInt8} (hR : R a cs ds.head?) (hS : (S a).Spells b ds) :
    (Grammar.ahead R S).Spells b (cs ++ ds) := by
  obtain ⟨ms, hS, hfits⟩ := hS
  exact ⟨ms, ⟨a, cs, ds, hR, hS, rfl⟩, hfits⟩

theorem Spells.filterMap {R : Grammar α} {a : α} {b : β} {bs : List UInt8} (h : R.Spells a bs)
    {f : α → Option β} (hf : f a = some b) : (R.filterMap f).Spells b bs := by
  obtain ⟨ms, hR, hfits⟩ := h
  exact ⟨ms, ⟨a, hf, hR⟩, hfits⟩

theorem Spells.unmarked {L : α → List UInt8 → Prop} {a : α} {bs : List UInt8} (h : L a bs) :
    (Grammar.unmarked L).Spells a bs :=
  ⟨[], ⟨h, rfl⟩, fits_nil 0⟩

theorem Spells.sourced {R : Grammar α} {a : α} {bs : List UInt8} (h : R.Spells a bs)
    (f : List UInt8 → α → β) : (R.sourced f).Spells (f bs a) bs := by
  obtain ⟨ms, hR, hfits⟩ := h
  exact ⟨ms, ⟨a, rfl, hR⟩, hfits⟩

theorem Spells.need {R : Grammar α} {a : α} {bs : List UInt8} {n : Nat} (h : R.Spells a bs)
    (hn : n ≤ bs.length) : (R.need n).Spells a bs := by
  obtain ⟨ms, hR, hfits⟩ := h
  exact ⟨_, ⟨ms, hR, rfl⟩, List.forall_mem_cons.mpr ⟨hn, hfits⟩⟩

/-- One spelling per item. -/
theorem Spells.repeated {R : Grammar α} {as : List α} {blocks : List (List UInt8)}
    (h : List.Forall₂ R.Spells as blocks) : (R.repeated as.length).Spells as blocks.flatten := by
  induction h with
  | nil => exact Spells.pure []
  | cons head _ ih =>
      rw [List.flatten_cons]
      exact head.bind (ih.map (_ :: ·))

/-- One spelling per item, when each item has its own. -/
theorem Spells.repeated_flatMap {R : Grammar α} {enc : α → List UInt8} {as : List α}
    (h : ∀ a ∈ as, R.Spells a (enc a)) : (R.repeated as.length).Spells as (as.flatMap enc) := by
  rw [List.flatMap_def]
  exact Spells.repeated (List.forall₂_map_right_iff.mpr (List.forall₂_same.mpr h))

end Grammar

/-! ## What a parser accepts -/

variable [Cursor σ]

/-- From the states in `P`, the parser accepts exactly the spellings of `R` whose
marks have room in the bytes that follow. -/
structure Accepts (P : σ → Prop) (p : EStateM ε σ α) (R : Grammar α) : Prop where
  sound : ∀ s a s', P s → p.run s = .ok a s' →
    ∃ bs ms, rest s = bs ++ rest s' ∧ s' = advance bs.length s ∧ R a bs ms ∧
      Fits (rest s').length ms
  complete : ∀ s a bs ms tl, P s → R a bs ms → rest s = bs ++ tl → Fits tl.length ms →
    p.run s = .ok a (advance bs.length s)
  refuses : ∀ s a bs ms tl, P s → R a bs ms → rest s = bs ++ tl → ¬ Fits tl.length ms →
    ∀ b s', p.run s ≠ .ok b s'

/-- The states of `P` stay in `P` as the cursor moves. -/
def Stable (P : σ → Prop) : Prop := ∀ n s, P s → P (advance n s)

variable {P : σ → Prop} {p : EStateM ε σ α} {f : α → EStateM ε σ β} {R : Grammar α}
  {S : α → Grammar β}

/-- A parser without marks. -/
theorem Accepts.of_unmarked {L : α → List UInt8 → Prop}
    (sound : ∀ s a s', P s → p.run s = .ok a s' →
      ∃ bs, rest s = bs ++ rest s' ∧ s' = advance bs.length s ∧ L a bs)
    (complete : ∀ s a bs tl, P s → L a bs → rest s = bs ++ tl →
      p.run s = .ok a (advance bs.length s)) :
    Accepts P p (Grammar.unmarked L) where
  sound s a s' hP hrun := by
    obtain ⟨bs, hrest, hs', hL⟩ := sound s a s' hP hrun
    exact ⟨bs, [], hrest, hs', ⟨hL, rfl⟩, fits_nil _⟩
  complete s a bs ms tl hP hR hrest _ := complete s a bs tl hP hR.1 hrest
  refuses s a bs ms tl _ hR _ hfits := by
    obtain ⟨_, rfl⟩ := hR
    exact absurd (fits_nil _) hfits

theorem Accepts.pure (a : α) : Accepts P (Pure.pure a : EStateM ε σ α) (Grammar.pure a) where
  sound s b s' _ hrun := by
    cases hrun
    exact ⟨[], [], rfl, by simp, ⟨rfl, rfl, rfl⟩, fits_nil _⟩
  complete s b bs ms tl _ hR _ _ := by
    obtain ⟨rfl, rfl, rfl⟩ := hR
    simp
  refuses s b bs ms tl _ hR _ hfits := by
    obtain ⟨_, _, rfl⟩ := hR
    exact absurd (fits_nil _) hfits

theorem Accepts.none (h : ∀ s, P s → ∀ a s', p.run s ≠ .ok a s') :
    Accepts P p Grammar.none where
  sound s a s' hP hrun := absurd hrun (h s hP a s')
  complete _ _ _ _ _ _ hR := hR.elim
  refuses _ _ _ _ _ _ hR := hR.elim

theorem Accepts.throw (e : ε) : Accepts P (throw e : EStateM ε σ α) Grammar.none :=
  Accepts.none fun s _ a s' hrun => by cases hrun

theorem Accepts.congr {R' : Grammar α} (h : Accepts P p R)
    (hR : ∀ a bs ms, R a bs ms ↔ R' a bs ms) : Accepts P p R' := by
  have heq : R = R' := funext fun a => funext fun bs => funext fun ms => propext (hR a bs ms)
  exact heq ▸ h

/-- Sequencing: the marks of the first half also see the bytes of the second. -/
theorem Accepts.bind (hP : Stable P) (hp : Accepts P p R) (hf : ∀ a, Accepts P (f a) (S a)) :
    Accepts P (p >>= f) (R.bind S) where
  sound s b s'' hs hrun := by
    obtain ⟨a, s', hx, hy⟩ := run_bind_ok_iff.mp hrun
    obtain ⟨cs, ks, hcs, rfl, hR, hks⟩ := hp.sound s a s' hs hx
    obtain ⟨ds, ns, hds, rfl, hS, hns⟩ := (hf a).sound _ b s'' (hP _ s hs) hy
    refine ⟨cs ++ ds, _, ?_, ?_, ⟨a, cs, ds, ks, ns, hR, hS, rfl, rfl⟩, ?_⟩
    · rw [List.append_assoc, ← hds, hcs]
    · rw [Cursor.advance_advance, List.length_append]
    · refine fits_append.mpr ⟨fits_shift.mpr ?_, hns⟩
      rwa [hds, List.length_append] at hks
  complete s b bs ms tl hs hR hrest hfits := by
    obtain ⟨a, cs, ds, ks, ns, hR, hS, rfl, rfl⟩ := hR
    rw [List.append_assoc] at hrest
    obtain ⟨hks, hns⟩ := fits_append.mp hfits
    have hx := hp.complete s a cs ks (ds ++ tl) hs hR hrest
      (by rw [List.length_append]; exact fits_shift.mp hks)
    rw [run_bind_of_ok hx, (hf a).complete _ b ds ns tl (hP _ s hs) hS
      (rest_advance_of_append hrest) hns, Cursor.advance_advance, List.length_append]
  refuses s b bs ms tl hs hR hrest hfits := by
    obtain ⟨a, cs, ds, ks, ns, hR, hS, rfl, rfl⟩ := hR
    rw [List.append_assoc] at hrest
    intro b' s' hrun
    obtain ⟨a', t, hx, hy⟩ := run_bind_ok_iff.mp hrun
    -- either the first marks lack room, or those of the second part do
    by_cases hks : Fits (ds ++ tl).length ks
    · have hdet := hp.complete s a cs ks (ds ++ tl) hs hR hrest hks
      rw [hx] at hdet
      cases hdet
      refine (hf a).refuses _ b ds ns tl (hP _ s hs) hS (rest_advance_of_append hrest) ?_ b' s' hy
      intro hns
      refine hfits (fits_append.mpr ⟨fits_shift.mpr ?_, hns⟩)
      rwa [List.length_append] at hks
    · exact hp.refuses s a cs ks (ds ++ tl) hs hR hrest hks a' t hx

theorem Accepts.map (hp : Accepts P p R) (g : α → β) :
    Accepts P (p >>= fun a => Pure.pure (g a)) (R.map g) where
  sound s b s' hs hrun := by
    obtain ⟨a, t, hx, hy⟩ := run_bind_ok_iff.mp hrun
    obtain ⟨bs, ms, hbs, ht, hR, hms⟩ := hp.sound s a t hs hx
    cases hy
    exact ⟨bs, ms, hbs, ht, ⟨a, rfl, hR⟩, hms⟩
  complete s b bs ms tl hs hR hrest hfits := by
    obtain ⟨a, rfl, hR⟩ := hR
    rw [run_bind_of_ok (hp.complete s a bs ms tl hs hR hrest hfits)]
    rfl
  refuses s b bs ms tl hs hR hrest hfits := by
    obtain ⟨a, rfl, hR⟩ := hR
    intro b' s' hrun
    obtain ⟨a', t, hx, _⟩ := run_bind_ok_iff.mp hrun
    exact hp.refuses s a bs ms tl hs hR hrest hfits a' t hx

theorem Accepts.filterMap (hp : Accepts P p R) (g : α → Option β) (e : α → ε) :
    Accepts P (p >>= fun a => orFail (g a) (e a)) (R.filterMap g) where
  sound s b s' hs hrun := by
    obtain ⟨a, t, hx, hy⟩ := run_bind_ok_iff.mp hrun
    obtain ⟨bs, ms, hbs, ht, hR, hms⟩ := hp.sound s a t hs hx
    obtain ⟨hg, rfl⟩ := orFail_ok_iff.mp hy
    exact ⟨bs, ms, hbs, ht, ⟨a, hg, hR⟩, hms⟩
  complete s b bs ms tl hs hR hrest hfits := by
    obtain ⟨a, hg, hR⟩ := hR
    rw [run_bind_of_ok (hp.complete s a bs ms tl hs hR hrest hfits)]
    exact orFail_ok_iff.mpr ⟨hg, rfl⟩
  refuses s b bs ms tl hs hR hrest hfits := by
    obtain ⟨a, _, hR⟩ := hR
    intro b' s' hrun
    obtain ⟨a', t, hx, _⟩ := run_bind_ok_iff.mp hrun
    exact hp.refuses s a bs ms tl hs hR hrest hfits a' t hx

/-- A parser that first looks at its state. -/
theorem Accepts.get_bind {f : σ → EStateM ε σ β} {R : Grammar β}
    (hf : ∀ s, P s → Accepts P (f s) R) : Accepts P (get >>= f) R where
  sound s b s' hs hrun := (hf s hs).sound s b s' hs hrun
  complete s b bs ms tl hs hR hrest hfits := (hf s hs).complete s b bs ms tl hs hR hrest hfits
  refuses s b bs ms tl hs hR hrest hfits := (hf s hs).refuses s b bs ms tl hs hR hrest hfits

/-- A choice made on what was read before. -/
theorem Accepts.ite {c : Prop} [Decidable c] {q : EStateM ε σ α} {R' : Grammar α}
    (hp : c → Accepts P p R) (hq : ¬ c → Accepts P q R') :
    Accepts P (if c then p else q) (if c then R else R') := by
  by_cases h : c
  · rw [if_pos h, if_pos h]
    exact hp h
  · rw [if_neg h, if_neg h]
    exact hq h

/-- A check that fails unless `c` holds, then the rest. -/
theorem Accepts.check {c : Prop} [Decidable c] {e : ε} (hp : c → Accepts P p R) :
    Accepts P (Wire.check c e >>= fun _ => p) (R.guard c) := by
  by_cases hc : c
  · have heq : (Wire.check c e >>= fun _ => p : EStateM ε σ α) = p := by
      rw [Wire.check, if_pos hc]
      rfl
    rw [heq]
    refine (hp hc).congr fun a bs ms => ?_
    constructor
    · intro h
      exact ⟨hc, h⟩
    · intro h
      exact h.2
  · have hnone : Accepts P (Wire.check c e >>= fun _ => p) Grammar.none := by
      rw [Wire.check, if_neg hc]
      exact Accepts.throw e
    refine hnone.congr fun a bs ms => ?_
    constructor
    · intro h
      exact h.elim
    · intro h
      exact hc h.1

/-- A check that succeeds with `n` bytes left. -/
theorem Accepts.need {q : EStateM ε σ Unit} {n : Nat}
    (hq : ∀ s s', P s → (q.run s = .ok () s' ↔ n ≤ (rest s).length ∧ s' = s))
    (hp : Accepts P p R) : Accepts P (q >>= fun _ => p) (R.need n) where
  sound s a s' hs hrun := by
    obtain ⟨_, t, hx, hy⟩ := run_bind_ok_iff.mp hrun
    obtain ⟨hn, rfl⟩ := (hq s t hs).mp hx
    obtain ⟨bs, ms, hbs, hs', hR, hms⟩ := hp.sound t a s' hs hy
    rw [hbs, List.length_append] at hn
    exact ⟨bs, _, hbs, hs', ⟨ms, hR, rfl⟩, List.forall_mem_cons.mpr ⟨hn, hms⟩⟩
  complete s a bs ms tl hs hR hrest hfits := by
    obtain ⟨ns, hR, rfl⟩ := hR
    obtain ⟨hn, hns⟩ := List.forall_mem_cons.mp hfits
    have hx := (hq s s hs).mpr ⟨by rw [hrest, List.length_append]; exact hn, rfl⟩
    rw [run_bind_of_ok hx]
    exact hp.complete s a bs ns tl hs hR hrest hns
  refuses s a bs ms tl hs hR hrest hfits := by
    obtain ⟨ns, hR, rfl⟩ := hR
    intro b s' hrun
    obtain ⟨_, t, hx, hy⟩ := run_bind_ok_iff.mp hrun
    obtain ⟨hn, rfl⟩ := (hq s t hs).mp hx
    rw [hrest, List.length_append] at hn
    refine hp.refuses t a bs ns tl hs hR hrest ?_ b s' hy
    intro hns
    exact hfits (List.forall_mem_cons.mpr ⟨hn, hns⟩)

theorem Accepts.repeatM (hP : Stable P) (hp : Accepts P p R) :
    ∀ n, Accepts P (Wire.repeatM p n) (R.repeated n)
  | 0 => Accepts.pure []
  | n + 1 => Accepts.bind hP hp fun a => (Accepts.repeatM hP hp n).map (a :: ·)

/-! ## Looking at the next byte -/

/-- The parser reads a part whose spelling depends on the byte after it. -/
structure AcceptsAhead (P : σ → Prop) (p : EStateM ε σ α)
    (R : α → List UInt8 → Option UInt8 → Prop) : Prop where
  sound : ∀ s a s', P s → p.run s = .ok a s' →
    ∃ bs, rest s = bs ++ rest s' ∧ s' = advance bs.length s ∧ R a bs (rest s').head?
  complete : ∀ s a bs tl, P s → R a bs tl.head? → rest s = bs ++ tl →
    p.run s = .ok a (advance bs.length s)

theorem AcceptsAhead.pure (a : α) :
    AcceptsAhead P (Pure.pure a : EStateM ε σ α) (fun b bs _ => b = a ∧ bs = []) where
  sound s b s' _ hrun := by
    cases hrun
    exact ⟨[], rfl, by simp, rfl, rfl⟩
  complete s b bs tl _ hR _ := by
    obtain ⟨rfl, rfl⟩ := hR
    simp

theorem AcceptsAhead.ite {c : Prop} [Decidable c] {q : EStateM ε σ α}
    {R R' : α → List UInt8 → Option UInt8 → Prop} (hp : AcceptsAhead P p R)
    (hq : AcceptsAhead P q R') :
    AcceptsAhead P (if c then p else q) (if c then R else R') := by
  by_cases h : c
  · rw [if_pos h, if_pos h]
    exact hp
  · rw [if_neg h, if_neg h]
    exact hq

/-- The part is spelled the same way whatever follows. -/
def Settled (R : α → List UInt8 → Option UInt8 → Prop) (a : α) : Prop :=
  ∀ cs next next', R a cs next → R a cs next'

/-- Either the part does not depend on what follows, or what follows is not empty and the
byte looked at is its first. -/
theorem AcceptsAhead.bind (hP : Stable P) {R : α → List UInt8 → Option UInt8 → Prop}
    (hp : AcceptsAhead P p R) (hf : ∀ a, Accepts P (f a) (S a))
    (hS : ∀ a, (S a).Nonempty ∨ Settled R a) :
    Accepts P (p >>= f) (Grammar.ahead R S) := by
  -- the byte ahead is that of the second part, and where this may be empty it does not matter
  have hhead : ∀ a b cs ds ms tl, S a b ds ms →
      (R a cs (ds ++ tl).head? ↔ R a cs ds.head?) := by
    intro a b cs ds ms tl hds
    rcases hS a with hpos | hsettled
    · cases ds with
      | nil => exact absurd (hpos b [] ms hds) (Nat.lt_irrefl 0)
      | cons d ds => exact Iff.rfl
    · exact ⟨hsettled cs _ _, hsettled cs _ _⟩
  refine ⟨?_, ?_, ?_⟩
  · intro s b s'' hs hrun
    obtain ⟨a, s', hx, hy⟩ := run_bind_ok_iff.mp hrun
    obtain ⟨cs, hcs, rfl, hR⟩ := hp.sound s a s' hs hx
    obtain ⟨ds, ms, hds, rfl, hSb, hms⟩ := (hf a).sound _ b s'' (hP _ s hs) hy
    rw [hds, hhead a b cs ds ms _ hSb] at hR
    refine ⟨cs ++ ds, ms, ?_, ?_, ⟨a, cs, ds, hR, hSb, rfl⟩, hms⟩
    · rw [List.append_assoc, ← hds, hcs]
    · rw [Cursor.advance_advance, List.length_append]
  · intro s b bs ms tl hs hR hrest hfits
    obtain ⟨a, cs, ds, hR, hSb, rfl⟩ := hR
    rw [List.append_assoc] at hrest
    rw [← hhead a b cs ds ms tl hSb] at hR
    rw [run_bind_of_ok (hp.complete s a cs (ds ++ tl) hs hR hrest),
      (hf a).complete _ b ds ms tl (hP _ s hs) hSb (rest_advance_of_append hrest) hfits,
      Cursor.advance_advance, List.length_append]
  · intro s b bs ms tl hs hR hrest hfits b' s' hrun
    obtain ⟨a, cs, ds, hR, hSb, rfl⟩ := hR
    rw [List.append_assoc] at hrest
    rw [← hhead a b cs ds ms tl hSb] at hR
    rw [run_bind_of_ok (hp.complete s a cs (ds ++ tl) hs hR hrest)] at hrun
    exact (hf a).refuses _ b ds ms tl (hP _ s hs) hSb (rest_advance_of_append hrest) hfits b' s'
      hrun

end Wire
