import Cildec.Lib.Grammar
import Cildec.Signature.Parser

/-!
# What the signature parser accepts (ECMA-335 II.23.2)

The grammars of the primitives of `Parser`, and the proofs that each accepts exactly what
its grammar spells. The only marks are those of array ranks: a declared count never asks for
more bytes than its own items take.

* `accepts_counted`: items behind their count;
* `acceptsAhead_customMods`, `acceptsAhead_takeIf`: what ends at the byte that follows;
* `accepts_nested`: one level of the recursion.
-/

namespace Cildec.Parser

open Wire

instance : Cursor Parser where
  rest := rest
  advance := advance
  rest_advance n p := List.drop_drop.symm.trans rfl
  advance_zero _ := rfl
  advance_advance m n p := by
    show ({ p with pos := p.pos + m + n } : Parser) = { p with pos := p.pos + (m + n) }
    rw [Nat.add_assoc]

@[simp] theorem cursor_rest (p : Parser) : Cursor.rest p = p.rest := rfl
@[simp] theorem cursor_advance (n : Nat) (p : Parser) : Cursor.advance n p = p.advance n := rfl

theorem rest_length (p : Parser) : p.rest.length = p.remaining := List.length_drop

/-- Parsers with a limit, a depth and a pinned flag, anywhere in their bytes. -/
def At (limit depth : Nat) (seen : Bool) (p : Parser) : Prop :=
  p.options.limit = limit ∧ p.depth = depth ∧ p.pinnedSeen = seen

theorem stable_at (limit depth : Nat) (seen : Bool) : Stable (At limit depth seen) :=
  fun _ _ h => h

variable {P : Parser → Prop} {α β : Type}

/-! ## Bytes, integers and tokens -/

/-- One byte. -/
def byteGrammar : Grammar UInt8 := .unmarked fun b bs => bs = [b]

theorem u8_run_cons {p : Parser} {b : UInt8} {tl : List UInt8} (h : p.rest = b :: tl) :
    u8.run p = .ok b (p.advance 1) := by
  simp only [u8, EStateM.run_bind, EStateM.run_get, h, EStateM.run_set, EStateM.run_pure]

theorem u8_run_nil {p : Parser} (h : p.rest = []) : u8.run p = .error (p.err .truncated) p := by
  simp [u8, h]

theorem accepts_u8 : Accepts P u8 byteGrammar := by
  refine Accepts.of_unmarked ?_ ?_
  · intro p b p' _ hrun
    cases hrest : p.rest with
    | nil =>
        rw [u8_run_nil hrest] at hrun
        cases hrun
    | cons c tl =>
        rw [u8_run_cons hrest] at hrun
        cases hrun
        refine ⟨[b], ?_, rfl, rfl⟩
        rw [← cursor_advance, Cursor.rest_advance, cursor_rest, hrest]
        rfl
  · rintro p b bs tl _ rfl hrest
    exact u8_run_cons hrest

theorem byteGrammar_nonempty : byteGrammar.Nonempty :=
  .unmarked fun b bs h => by
    rw [h]
    exact Nat.one_pos

theorem accepts_compressed {read : List UInt8 → Result (α × Nat)} {L : α → List UInt8 → Prop}
    (hread : ∀ bytes a n, read bytes = .ok (a, n) ↔
      ∃ bs tl, bytes = bs ++ tl ∧ bs.length = n ∧ L a bs) :
    Accepts P (compressed read) (.unmarked L) := by
  refine Accepts.of_unmarked ?_ ?_
  · intro p a p' _ hrun
    cases hp : read p.rest with
    | error e =>
        simp [compressed, hp] at hrun
    | ok result =>
        obtain ⟨value, used⟩ := result
        obtain ⟨bs, tl, hrest, rfl, hL⟩ := (hread _ _ _).mp hp
        simp only [compressed, EStateM.run_bind, EStateM.run_get, hp, EStateM.run_set,
          EStateM.run_pure] at hrun
        cases hrun
        refine ⟨bs, ?_, rfl, hL⟩
        rw [← cursor_advance, Cursor.rest_advance, cursor_rest, hrest, List.drop_left]
  · intro p a bs tl _ hL hrest
    have hp : read p.rest = .ok (a, bs.length) := (hread _ _ _).mpr ⟨bs, tl, hrest, rfl, hL⟩
    simp only [compressed, EStateM.run_bind, EStateM.run_get, hp, EStateM.run_set,
      EStateM.run_pure, cursor_advance]

/-- A compressed unsigned integer. -/
def cu32Grammar : Grammar Nat := .unmarked Compressed.Payload

/-- A compressed signed integer. -/
def ci32Grammar : Grammar Int := .unmarked Compressed.Signed

theorem accepts_cu32 : Accepts P cu32 cu32Grammar :=
  accepts_compressed fun _ _ _ => Compressed.readPayload_ok_iff

theorem accepts_ci32 : Accepts P ci32 ci32Grammar :=
  accepts_compressed fun _ _ _ => Compressed.readI32_ok_iff

theorem cu32Grammar_nonempty : cu32Grammar.Nonempty := .unmarked fun _ _ h => h.length_pos

theorem ci32Grammar_nonempty : ci32Grammar.Nonempty :=
  .unmarked fun _ _ ⟨_, h, _⟩ => h.length_pos

theorem accepts_position_bind {f : Nat → Parse β} {R : Grammar β}
    (hf : ∀ start, Accepts P (f start) R) : Accepts P (position >>= f) R :=
  Accepts.get_bind fun p _ => hf p.pos

/-- A type token: a compressed value whose tag is 0, 1 or 2. -/
def tokenGrammar : Grammar Token := cu32Grammar.filterMap typeTokenOf?

theorem accepts_typeToken : Accepts P typeToken tokenGrammar :=
  accepts_position_bind fun _ => accepts_cu32.filterMap _ _

theorem tokenGrammar_nonempty : tokenGrammar.Nonempty := cu32Grammar_nonempty.filterMap _

/-! ## Counts -/

theorem boundedCount_ok_iff {p p' : Parser} {n : Nat} :
    boundedCount.run p = .ok n p' ↔ cu32.run p = .ok n p' ∧ n ≤ p'.remaining := by
  have hstep : boundedCount.run p = (cu32 >>= fun count => get >>= fun q : Parser =>
      if count ≤ q.remaining then pure count else throw (errAt .malformed p.pos)).run p := rfl
  rw [hstep, run_bind_ok_iff]
  constructor
  · rintro ⟨m, q, hrun, hcheck⟩
    rw [EStateM.run_bind, EStateM.run_get] at hcheck
    by_cases hle : m ≤ q.remaining
    · simp only [if_pos hle] at hcheck
      cases hcheck
      exact ⟨hrun, hle⟩
    · simp only [if_neg hle] at hcheck
      cases hcheck
  · rintro ⟨hrun, hle⟩
    refine ⟨n, p', hrun, ?_⟩
    rw [EStateM.run_bind, EStateM.run_get]
    simp only [if_pos hle]
    rfl

/-- A count in front of something that takes a byte for each of it. -/
theorem accepts_boundedCount_bind (hP : Stable P) {f : Nat → Parse β} {S : Nat → Grammar β}
    (hf : ∀ n, Accepts P (f n) (S n)) (hlen : ∀ n b bs ms, S n b bs ms → n ≤ bs.length) :
    Accepts P (boundedCount >>= f) (cu32Grammar.bind S) := by
  have hplain : Accepts P (cu32 >>= f) (cu32Grammar.bind S) := Accepts.bind hP accepts_cu32 hf
  have hsome : ∀ {p b p'}, (boundedCount >>= f).run p = .ok b p' →
      (cu32 >>= f).run p = .ok b p' := by
    intro p b p' hrun
    obtain ⟨n, q, hcount, hrest⟩ := run_bind_ok_iff.mp hrun
    exact run_bind_ok_iff.mpr ⟨n, q, (boundedCount_ok_iff.mp hcount).1, hrest⟩
  refine ⟨?_, ?_, ?_⟩
  · intro p b p' hp hrun
    exact hplain.sound p b p' hp (hsome hrun)
  · intro p b bs ms tl hp hR hrest hfits
    obtain ⟨n, cs, ds, ks, ns, hcs, hds, rfl, rfl⟩ := hR
    rw [List.append_assoc] at hrest
    obtain ⟨hks, hns⟩ := fits_append.mp hfits
    have hcount := accepts_cu32.complete p n cs ks (ds ++ tl) hp hcs hrest
      (by rw [List.length_append]; exact fits_shift.mp hks)
    have hroom : n ≤ (p.advance cs.length).remaining := by
      have hafter : (p.advance cs.length).rest = ds ++ tl := rest_advance_of_append hrest
      have hn := hlen n b ds ns hds
      rw [← rest_length, hafter, List.length_append]
      omega
    rw [run_bind_of_ok (boundedCount_ok_iff.mpr ⟨hcount, hroom⟩),
      (hf n).complete _ b ds ns tl (hP _ p hp) hds (rest_advance_of_append hrest) hns,
      Cursor.advance_advance, List.length_append]
  · intro p b bs ms tl hp hR hrest hfits b' p' hrun
    exact hplain.refuses p b bs ms tl hp hR hrest hfits b' p' (hsome hrun)

/-- A count and that many items. -/
def countedGrammar (R : Grammar α) : Grammar (List α) := cu32Grammar.bind R.repeated

theorem accepts_counted (hP : Stable P) {item : Parse α} {R : Grammar α}
    (hitem : Accepts P item R) (hR : R.Nonempty) : Accepts P (counted item) (countedGrammar R) :=
  accepts_boundedCount_bind hP (fun n => Accepts.repeatM hP hitem n) fun _ _ _ _ h =>
    (Grammar.repeated_length hR h).2

/-! ## Custom modifiers -/

/-- `bs` spells the modifiers, one after another. -/
def Mods : List CustomMod → List UInt8 → Prop
  | [], bs => bs = []
  | mod :: mods, bs => ∃ b cs ds, modKind? b = some mod.required ∧
      (∃ v, typeTokenOf? v = some mod.typeToken ∧ Compressed.Payload v cs) ∧ Mods mods ds ∧
      bs = b :: (cs ++ ds)

/-- At most `limit` modifiers, and no other follows. -/
def ModsAhead (limit : Nat) (mods : List CustomMod) (bs : List UInt8) (next : Option UInt8) :
    Prop :=
  Mods mods bs ∧ mods.length ≤ limit ∧ next.bind modKind? = none

theorem nextMod_run_some {p : Parser} {b : UInt8} {tl : List UInt8} {required : Bool}
    (hrest : p.rest = b :: tl) (hb : modKind? b = some required) :
    nextMod.run p = .ok (some required) (p.advance 1) := by
  simp only [nextMod, EStateM.run_bind, EStateM.run_get, hrest, List.head?_cons, Option.bind_some,
    hb, EStateM.run_set, EStateM.run_pure]

theorem nextMod_run_none {p : Parser} (h : p.rest.head?.bind modKind? = none) :
    nextMod.run p = .ok none p := by
  simp [nextMod, h]

theorem rest_advance_one {p : Parser} {b : UInt8} {tl : List UInt8} (h : p.rest = b :: tl) :
    (p.advance 1).rest = tl := by
  rw [← cursor_advance, ← cursor_rest, Cursor.rest_advance, cursor_rest, h]
  rfl

theorem modsRound_none (more : Parse (List CustomMod)) {p : Parser}
    (h : p.rest.head?.bind modKind? = none) : (modsRound more).run p = .ok [] p := by
  rw [modsRound, run_bind_of_ok (nextMod_run_none h)]
  rfl

theorem modsRound_some (more : Parse (List CustomMod)) {p : Parser} {b : UInt8}
    {tl : List UInt8} {required : Bool} (hrest : p.rest = b :: tl)
    (hb : modKind? b = some required) :
    (modsRound more).run p =
      (typeToken >>= fun token => more >>= fun mods => pure (⟨required, token⟩ :: mods)).run
        (p.advance 1) := by
  rw [modsRound, run_bind_of_ok (nextMod_run_some hrest hb)]

theorem customModsFrom_stop (n : Nat) {p : Parser} (h : p.rest.head?.bind modKind? = none) :
    (customModsFrom n).run p = .ok [] p := by
  cases n with
  | zero => exact modsRound_none _ h
  | succ n => exact modsRound_none _ h

/-- What the loop steps over when another modifier comes next. -/
theorem head_of_modKind {p : Parser} {required : Bool}
    (h : p.rest.head?.bind modKind? = some required) :
    ∃ b tl, p.rest = b :: tl ∧ modKind? b = some required := by
  obtain ⟨b, hb, hkind⟩ := Option.bind_eq_some_iff.mp h
  obtain ⟨tl, hrest⟩ := List.head?_eq_some_iff.mp hb
  exact ⟨b, tl, hrest, hkind⟩

theorem advance_mod (p : Parser) (b : UInt8) (cs ds : List UInt8) :
    Cursor.advance ds.length (Cursor.advance cs.length (p.advance 1)) =
      Cursor.advance (b :: (cs ++ ds)).length p := by
  rw [← cursor_advance 1, Cursor.advance_advance, Cursor.advance_advance, List.length_cons,
    List.length_append]
  congr 1
  omega

/-- Each round of the loop spells one modifier more. -/
theorem customModsFrom_sound (hP : Stable P) (n : Nat) {p p' : Parser} {mods : List CustomMod}
    (hp : P p) (hrun : (customModsFrom n).run p = .ok mods p') :
    ∃ bs, p.rest = bs ++ p'.rest ∧ p' = Cursor.advance bs.length p ∧
      ModsAhead n mods bs p'.rest.head? := by
  induction n generalizing p mods with
  | zero =>
      cases hhead : p.rest.head?.bind modKind? with
      | none =>
          rw [customModsFrom_stop 0 hhead] at hrun
          cases hrun
          exact ⟨[], rfl, rfl, rfl, Nat.le_refl 0, hhead⟩
      | some required =>
          obtain ⟨b, tl, hrest, hkind⟩ := head_of_modKind hhead
          rw [customModsFrom, modsRound_some _ hrest hkind] at hrun
          obtain ⟨token, q, _, hthrow⟩ := run_bind_ok_iff.mp hrun
          cases hthrow
  | succ n ih =>
      cases hhead : p.rest.head?.bind modKind? with
      | none =>
          rw [customModsFrom_stop (n + 1) hhead] at hrun
          cases hrun
          exact ⟨[], rfl, rfl, rfl, Nat.zero_le _, hhead⟩
      | some required =>
          obtain ⟨b, tl, hrest, hkind⟩ := head_of_modKind hhead
          rw [customModsFrom, modsRound_some _ hrest hkind] at hrun
          obtain ⟨token, q, htoken, hmore⟩ := run_bind_ok_iff.mp hrun
          obtain ⟨others, q', hothers, hdone⟩ := run_bind_ok_iff.mp hmore
          cases hdone
          have hp1 : P (p.advance 1) := hP 1 p hp
          obtain ⟨cs, _, hcs, rfl, ⟨v, hv, hpayload, _⟩, _⟩ :=
            accepts_typeToken.sound _ token q hp1 htoken
          obtain ⟨ds, hds, rfl, hmods, hlen, hnext⟩ := ih (hP _ _ hp1) hothers
          rw [cursor_rest, rest_advance_one hrest] at hcs
          refine ⟨b :: (cs ++ ds), ?_, advance_mod p b cs ds,
            ⟨b, cs, ds, hkind, ⟨v, hv, hpayload⟩, hmods, rfl⟩, Nat.succ_le_succ hlen, hnext⟩
          rw [hrest, hcs, cursor_rest, hds, List.cons_append, List.append_assoc]

theorem customModsFrom_complete (hP : Stable P) (n : Nat) {p : Parser} {mods : List CustomMod}
    {bs tl : List UInt8} (hp : P p) (hR : ModsAhead n mods bs tl.head?)
    (hrest : p.rest = bs ++ tl) :
    (customModsFrom n).run p = .ok mods (Cursor.advance bs.length p) := by
  induction n generalizing p mods bs with
  | zero =>
      obtain ⟨hmods, hlen, hnext⟩ := hR
      obtain rfl := List.eq_nil_of_length_eq_zero (Nat.le_zero.mp hlen)
      obtain rfl : bs = [] := hmods
      rw [List.nil_append] at hrest
      exact customModsFrom_stop 0 (by rw [hrest]; exact hnext)
  | succ n ih =>
      obtain ⟨hmods, hlen, hnext⟩ := hR
      cases mods with
      | nil =>
          obtain rfl : bs = [] := hmods
          rw [List.nil_append] at hrest
          exact customModsFrom_stop (n + 1) (by rw [hrest]; exact hnext)
      | cons mod mods =>
          obtain ⟨b, cs, ds, hkind, ⟨v, hv, hpayload⟩, hds, rfl⟩ := hmods
          rw [List.cons_append, List.append_assoc] at hrest
          have hp1 : P (p.advance 1) := hP 1 p hp
          have htoken := accepts_typeToken.complete (p.advance 1) mod.typeToken cs []
            (ds ++ tl) hp1 ⟨v, hv, hpayload, rfl⟩ (rest_advance_one hrest) (fits_nil _)
          have hafter : (Cursor.advance cs.length (p.advance 1)).rest = ds ++ tl :=
            rest_advance_of_append (s := p.advance 1) (rest_advance_one hrest)
          have hothers := ih (hP _ _ hp1) ⟨hds, Nat.le_of_succ_le_succ hlen, hnext⟩ hafter
          rw [customModsFrom, modsRound_some _ hrest hkind, run_bind_of_ok htoken,
            run_bind_of_ok hothers, ← advance_mod p b]
          rfl

theorem acceptsAhead_customMods (limit depth : Nat) (seen : Bool) :
    AcceptsAhead (At limit depth seen) customMods (ModsAhead limit) := by
  refine ⟨?_, ?_⟩
  · intro p mods p' hp hrun
    obtain rfl : p.options.limit = limit := hp.1
    exact customModsFrom_sound (stable_at _ depth seen) _ hp hrun
  · intro p mods bs tl hp hR hrest
    obtain rfl : p.options.limit = limit := hp.1
    exact customModsFrom_complete (stable_at _ depth seen) _ hp hR hrest

/-! ## One byte ahead -/

/-- `code` is stepped over, or something else follows. -/
def TakenIf (code : UInt8) (taken : Bool) (bs : List UInt8) (next : Option UInt8) : Prop :=
  (taken = true ∧ bs = [code]) ∨ (taken = false ∧ bs = [] ∧ ∃ b, next = some b ∧ b ≠ code)

theorem peek_run_cons {p : Parser} {b : UInt8} {tl : List UInt8} (h : p.rest = b :: tl) :
    peek.run p = .ok b p := by
  simp only [peek, EStateM.run_bind, EStateM.run_get, h, EStateM.run_pure]

/-- A computation that looks at the next byte fails without one. -/
theorem exists_of_peek {f : UInt8 → Parse α} {p p' : Parser} {a : α}
    (hrun : (peek >>= f).run p = .ok a p') :
    ∃ b tl, p.rest = b :: tl ∧ (f b).run p = .ok a p' := by
  cases hrest : p.rest with
  | nil =>
      simp [peek, hrest] at hrun
  | cons b tl =>
      rw [run_bind_of_ok (peek_run_cons hrest)] at hrun
      exact ⟨b, tl, rfl, hrun⟩

theorem acceptsAhead_takeIf (code : UInt8) : AcceptsAhead P (takeIf code) (TakenIf code) := by
  refine ⟨?_, ?_⟩
  · intro p taken p' _ hrun
    obtain ⟨b, tl, hrest, hrun⟩ := exists_of_peek hrun
    by_cases hb : b = code
    · subst hb
      rw [if_pos rfl] at hrun
      cases hrun
      refine ⟨[b], ?_, rfl, .inl ⟨rfl, rfl⟩⟩
      rw [cursor_rest, cursor_rest, rest_advance_one hrest, hrest]
      rfl
    · rw [if_neg hb] at hrun
      cases hrun
      refine ⟨[], rfl, rfl, .inr ⟨rfl, rfl, b, ?_, hb⟩⟩
      rw [cursor_rest, hrest]
      rfl
  · rintro p taken bs tl _ hR hrest
    rcases hR with ⟨rfl, rfl⟩ | ⟨rfl, rfl, b, hb, hne⟩
    · rw [takeIf, run_bind_of_ok (peek_run_cons hrest), if_pos rfl]
      rfl
    · obtain ⟨tl', rfl⟩ := List.head?_eq_some_iff.mp hb
      rw [takeIf, run_bind_of_ok (peek_run_cons hrest), if_neg hne]
      rfl

/-- A sentinel is stepped over, at most once, or something else follows. -/
def SentinelAhead (pastSentinel past : Bool) (bs : List UInt8) (next : Option UInt8) : Prop :=
  (pastSentinel = false ∧ past = true ∧ bs = [ElementType.sentinel]) ∨
    (past = pastSentinel ∧ bs = [] ∧ ∃ b, next = some b ∧ b ≠ ElementType.sentinel)

theorem acceptsAhead_stepSentinel (pastSentinel : Bool) :
    AcceptsAhead P (stepSentinel pastSentinel) (SentinelAhead pastSentinel) := by
  refine ⟨?_, ?_⟩
  · intro p past p' _ hrun
    obtain ⟨b, tl, hrest, hrun⟩ := exists_of_peek hrun
    by_cases hb : b = ElementType.sentinel
    · subst hb
      rw [if_pos rfl] at hrun
      cases pastSentinel with
      | true => cases hrun
      | false =>
          cases hrun
          refine ⟨[ElementType.sentinel], ?_, rfl, .inl ⟨rfl, rfl, rfl⟩⟩
          rw [cursor_rest, cursor_rest, rest_advance_one hrest, hrest]
          rfl
    · rw [if_neg hb] at hrun
      cases hrun
      refine ⟨[], rfl, rfl, .inr ⟨rfl, rfl, b, ?_, hb⟩⟩
      rw [cursor_rest, hrest]
      rfl
  · rintro p past bs tl _ hR hrest
    rcases hR with ⟨rfl, rfl, rfl⟩ | ⟨rfl, rfl, b, hb, hne⟩
    · rw [stepSentinel, run_bind_of_ok (peek_run_cons hrest), if_pos rfl]
      rfl
    · obtain ⟨tl', rfl⟩ := List.head?_eq_some_iff.mp hb
      rw [stepSentinel, run_bind_of_ok (peek_run_cons hrest), if_neg hne]
      rfl

/-! ## Nesting -/

variable {limit depth : Nat} {seen : Bool} {R : Grammar α} {S : Grammar β}

/-- A computation that is run from a changed state and reset afterwards. -/
theorem accepts_changed {x inner : Parse α} {P Q : Parser → Prop} {f g : Parser → Parser}
    (hf : ∀ p, P p → Q (f p)) (hrest : ∀ p, (f p).rest = p.rest)
    (hfg : ∀ n p, P p → g (Cursor.advance n (f p)) = Cursor.advance n p)
    (hkeep : ∀ p, (g p).rest = p.rest)
    (hx : ∀ p a p', P p → (x.run p = .ok a p' ↔ ∃ q, inner.run (f p) = .ok a q ∧ p' = g q))
    (h : Accepts Q inner R) : Accepts P x R where
  sound p a p' hp hrun := by
    obtain ⟨q, hq, rfl⟩ := (hx p a p' hp).mp hrun
    obtain ⟨bs, ms, hbs, hadv, hR, hms⟩ := h.sound (f p) a q (hf p hp) hq
    refine ⟨bs, ms, ?_, ?_, hR, ?_⟩
    · rw [cursor_rest, cursor_rest, hkeep, ← hrest]
      exact hbs
    · rw [hadv, hfg _ p hp]
    · rw [cursor_rest, hkeep]
      exact hms
  complete p a bs ms tl hp hR hbs hfits := by
    rw [cursor_rest, ← hrest] at hbs
    have hq := h.complete (f p) a bs ms tl (hf p hp) hR hbs hfits
    exact (hx p a _ hp).mpr ⟨_, hq, (hfg _ p hp).symm⟩
  refuses p a bs ms tl hp hR hbs hfits := by
    rw [cursor_rest, ← hrest] at hbs
    intro b p' hrun
    obtain ⟨q, hq, _⟩ := (hx p b p' hp).mp hrun
    exact h.refuses (f p) a bs ms tl (hf p hp) hR hbs hfits b q hq

theorem resetting_of_ok {reset : Parser → Parser} {inner : Parse α} {p q : Parser} {a : α}
    (h : inner.run p = .ok a q) : (resetting reset inner).run p = .ok a (reset q) := by
  unfold resetting EStateM.run at *
  simp only [h]

theorem resetting_of_error {reset : Parser → Parser} {inner : Parse α} {p q : Parser} {e : Error}
    (h : inner.run p = .error e q) : (resetting reset inner).run p = .error e (reset q) := by
  unfold resetting EStateM.run at *
  simp only [h]

theorem resetting_ok_iff {reset : Parser → Parser} {inner : Parse α} {p p' : Parser} {a : α} :
    (resetting reset inner).run p = .ok a p' ↔ ∃ q, inner.run p = .ok a q ∧ p' = reset q := by
  cases hinner : inner.run p with
  | ok b q =>
      rw [resetting_of_ok hinner]
      constructor
      · intro h
        cases h
        exact ⟨q, rfl, rfl⟩
      · rintro ⟨q', h, rfl⟩
        cases h
        rfl
  | error e q =>
      rw [resetting_of_error hinner]
      constructor
      · intro h
        cases h
      · rintro ⟨q', h, _⟩
        cases h

theorem enter_run {p : Parser} (h : p.depth < p.options.limit) :
    enter.run p = .ok () { p with depth := p.depth + 1 } := by
  have hle : p.depth + 1 ≤ p.options.limit := h
  simp [enter, hle]

theorem enter_run_error {p : Parser} (h : p.options.limit ≤ p.depth) :
    ∃ e p', enter.run p = .error e p' := by
  have hgt : ¬ p.depth + 1 ≤ p.options.limit := Nat.not_le.mpr (Nat.lt_succ_of_le h)
  simp [enter, hgt]

/-- One level deeper. -/
theorem accepts_nested {inner : Parse α} (hdepth : depth < limit)
    (h : Accepts (At limit (depth + 1) seen) inner R) :
    Accepts (At limit depth seen) (nested inner) R := by
  refine accepts_changed (f := fun p => { p with depth := p.depth + 1 }) (g := leave)
    ?_ (fun _ => rfl) (fun _ _ _ => rfl) (fun _ => rfl) ?_ h
  · rintro p ⟨hlimit, hd, hseen⟩
    exact ⟨hlimit, congrArg (· + 1) hd, hseen⟩
  · rintro p a p' ⟨hlimit, hd, _⟩
    rw [nested, run_bind_of_ok (enter_run (by omega))]
    exact resetting_ok_iff

/-- At the limit nothing is accepted. -/
theorem accepts_enter_bind {f : Unit → Parse α} (hdepth : depth = limit) :
    Accepts (At limit depth seen) (enter >>= f) Grammar.none := by
  refine Accepts.none ?_
  rintro p ⟨hlimit, hd, _⟩ a p' hrun
  obtain ⟨e, q, herror⟩ := enter_run_error (p := p) (by omega)
  rw [run_bind_of_error herror] at hrun
  cases hrun

end Cildec.Parser
