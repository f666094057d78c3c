import Cildec.Reader.Located
import Cildec.Signature.Grammar

/-!
# The errors of a signature point into its blob

The parser never stands behind the end of the blob, and an error names the place where it
stands, a place where it stood, or one byte more where an integer is cut after its first byte.
`Safe` says so of a method; the two methods that call each other are safe by induction on the
levels that are left (`safe_type_methodSig`).
-/

namespace Cildec

open Wire

/-! ## Compressed integers -/

namespace Compressed

theorem readPayload_located {bytes : List UInt8} {e : Error}
    (h : readPayload bytes = .error e) : e.Located 0 bytes.length := by
  cases bytes with
  | nil =>
      cases h
      exact Error.located_new le_rfl le_rfl
  | cons b0 tail =>
      have hfirst : 1 ≤ (b0 :: tail).length := Nat.succ_le_succ (Nat.zero_le _)
      simp only [readPayload] at h
      split_ifs at h
      · rcases tail with _ | ⟨b1, tl⟩
        · cases h
          exact Error.located_new (Nat.zero_le _) hfirst
        · cases h
      · rcases tail with _ | ⟨b1, _ | ⟨b2, _ | ⟨b3, tl⟩⟩⟩ <;> cases h
        all_goals exact Error.located_new (Nat.zero_le _) hfirst
      · cases h
        exact Error.located_new le_rfl (Nat.zero_le _)

theorem readPayload_used {v n : Nat} {bytes : List UInt8} (h : readPayload bytes = .ok (v, n)) :
    n ≤ bytes.length := by
  obtain ⟨bs, tl, rfl, rfl, _⟩ := readPayload_ok h
  rw [List.length_append]
  exact Nat.le_add_right _ _

theorem readI32_located {bytes : List UInt8} {e : Error} (h : readI32 bytes = .error e) :
    e.Located 0 bytes.length := by
  rw [readI32_eq] at h
  cases hraw : readU32 bytes with
  | error e' =>
      rw [hraw] at h
      cases h
      exact readPayload_located hraw
  | ok p =>
      rw [hraw] at h
      cases h

theorem readI32_used {v : Int} {n : Nat} {bytes : List UInt8} (h : readI32 bytes = .ok (v, n)) :
    n ≤ bytes.length := by
  obtain ⟨bs, tl, rfl, rfl, _⟩ := readI32_ok_iff.mp h
  rw [List.length_append]
  exact Nat.le_add_right _ _

end Compressed

namespace Parser

/-- The parser stands in a blob of `size` bytes. -/
structure Stands (size : Nat) (p : Parser) : Prop where
  size_eq : p.data.length = size
  inside : p.pos ≤ size

/-- The method stays in the blob, and its errors point into it. -/
abbrev Safe (size : Nat) (x : Parse α) : Prop :=
  Exits (Stands size) (Error.Located 0 size) (fun _ => Stands size) x

variable {α β : Type} {size start : Nat} {p : Parser}

theorem Stands.new (blob : List UInt8) (options : SignatureOptions) :
    Stands blob.length (new blob options) := ⟨rfl, Nat.zero_le _⟩

theorem Stands.remaining_eq (h : Stands size p) : p.remaining = size - p.pos :=
  congrArg (· - p.pos) h.size_eq

theorem Stands.advance {n : Nat} (h : Stands size p) (hn : n ≤ p.remaining) :
    Stands size (p.advance n) := by
  have hinside := h.inside
  have hremaining := h.remaining_eq
  refine ⟨h.size_eq, ?_⟩
  show p.pos + n ≤ size
  omega

theorem located_errAt {kind : ErrorKind} (h : start ≤ size) :
    (errAt kind start).Located 0 size := Error.located_new (Nat.zero_le _) h

theorem Stands.located_err {kind : ErrorKind} (h : Stands size p) :
    (p.err kind).Located 0 size := located_errAt h.inside

/-! ## The methods without nesting -/

theorem Safe.pure (a : α) : Safe size (Pure.pure a : Parse α) := Exits.pure fun _ h => h

theorem Safe.get_bind {f : Parser → Parse α} (h : ∀ p, Stands size p → Safe size (f p)) :
    Safe size (get >>= f) := Exits.get_keep h

/-- The place where the parser stood is in the blob. -/
theorem Safe.position_bind {f : Nat → Parse α} (h : ∀ start ≤ size, Safe size (f start)) :
    Safe size (position >>= f) :=
  Safe.get_bind fun p hp => h p.pos hp.inside

theorem Safe.set_advance {n : Nat} (h : Stands size p) (hn : n ≤ p.remaining) :
    Safe size (set (p.advance n) : Parse PUnit) := Exits.set (h.advance hn)

theorem one_le_remaining {b : UInt8} {tl : List UInt8} (h : p.rest = b :: tl) :
    1 ≤ p.remaining := by
  rw [← rest_length, h]
  exact Nat.succ_le_succ (Nat.zero_le _)

theorem safe_u8 : Safe size u8 := by
  refine Safe.get_bind fun p hp => ?_
  cases hrest : p.rest with
  | nil => exact Exits.throw hp.located_err
  | cons b tl =>
      exact (Safe.set_advance hp (one_le_remaining hrest)).bind fun _ => Safe.pure b

/-- A byte that is looked at can be stepped over. -/
theorem exits_peek : Exits (Stands size) (Error.Located 0 size)
    (fun _ p => Stands size p ∧ 1 ≤ p.remaining) peek := by
  refine Exits.get_bind fun p hp => ?_
  cases hrest : p.rest with
  | nil => exact Exits.throw hp.located_err
  | cons b tl =>
      refine Exits.pure fun s hs => ?_
      rw [hs]
      exact ⟨hp, one_le_remaining hrest⟩

/-- An integer is refused at an offset in the bytes that are left. -/
theorem safe_compressed {read : List UInt8 → Result (α × Nat)}
    (hused : ∀ bs a n, read bs = .ok (a, n) → n ≤ bs.length)
    (hlocated : ∀ bs e, read bs = .error e → e.Located 0 bs.length) :
    Safe size (compressed read) := by
  refine Safe.get_bind fun p hp => ?_
  have hinside := hp.inside
  have hrest := p.rest_length
  rw [hp.remaining_eq] at hrest
  cases hread : read p.rest with
  | ok result =>
      obtain ⟨a, used⟩ := result
      have hle := hused p.rest a used hread
      rw [rest_length] at hle
      exact (Safe.set_advance hp hle).bind fun _ => Safe.pure a
  | error e =>
      obtain ⟨o, ho, _, hle⟩ := hlocated p.rest e hread
      refine Exits.throw ⟨satAdd o p.pos, ?_, Nat.zero_le _, ?_⟩
      · simp only [Error.rebase, ho]
      · rw [satAdd]
        omega

theorem safe_cu32 : Safe size cu32 :=
  safe_compressed (fun _ _ _ => Compressed.readPayload_used) fun _ _ =>
    Compressed.readPayload_located

theorem safe_ci32 : Safe size ci32 :=
  safe_compressed (fun _ _ _ => Compressed.readI32_used) fun _ _ => Compressed.readI32_located

theorem safe_boundedCount : Safe size boundedCount := by
  refine Safe.position_bind fun start hstart => ?_
  refine safe_cu32.bind fun count => ?_
  refine Safe.get_bind fun p _ => ?_
  exact Exits.ite (fun _ => Safe.pure count) fun _ => Exits.throw (located_errAt hstart)

theorem safe_counted {item : Parse α} (h : Safe size item) : Safe size (counted item) :=
  safe_boundedCount.bind fun count => Exits.repeatM h count

/-- A value that a table gives, or else an error at `start`. -/
theorem safe_orFail (value : Option α) {kind : ErrorKind} (hstart : start ≤ size) :
    Safe size (orFail value (errAt kind start)) :=
  Exits.orFail (fun _ _ _ h => h) fun _ => located_errAt hstart

theorem safe_check {c : Prop} [Decidable c] {e : Error} (he : e.Located 0 size) :
    Safe size (check c e) :=
  (Exits.check fun _ => he).mono (fun _ h => h) fun _ _ h => h.2

theorem safe_expectConvention (expected : UInt8) : Safe size (expectConvention expected) := by
  refine Safe.position_bind fun start hstart => ?_
  refine safe_u8.bind fun byte => ?_
  exact (safe_check (located_errAt hstart)).bind fun _ => Safe.pure byte

theorem safe_typeToken : Safe size typeToken := by
  refine Safe.position_bind fun start hstart => ?_
  exact safe_cu32.bind fun value => safe_orFail _ hstart

theorem safe_nextMod : Safe size nextMod := by
  refine Safe.get_bind fun p hp => ?_
  cases hrest : p.rest with
  | nil => exact Safe.pure none
  | cons b tl =>
      rw [List.head?_cons, Option.bind_some]
      cases modKind? b with
      | none => exact Safe.pure none
      | some required =>
          exact (Safe.set_advance hp (one_le_remaining hrest)).bind fun _ => Safe.pure _

theorem safe_modsRound {more : Parse (List CustomMod)} (h : Safe size more) :
    Safe size (modsRound more) := by
  refine safe_nextMod.bind fun required => ?_
  cases required with
  | none => exact Safe.pure []
  | some required =>
      exact safe_typeToken.bind fun token => h.bind fun mods => Safe.pure _

theorem safe_customModsFrom : ∀ n, Safe size (customModsFrom n)
  | 0 => safe_modsRound (Safe.get_bind fun _ hp => Exits.throw hp.located_err)
  | n + 1 => safe_modsRound (safe_customModsFrom n)

theorem safe_customMods : Safe size customMods :=
  Safe.get_bind fun p _ => safe_customModsFrom p.options.limit

theorem safe_checkRank (rank : Nat) : Safe size (checkRank rank) :=
  Safe.get_bind fun _ hp =>
    Exits.ite (fun _ => Safe.pure ()) fun _ => Exits.throw hp.located_err

/-- What follows a look at the next byte, which may be stepped over. -/
theorem safe_step (a : α) : Exits (fun p => Stands size p ∧ 1 ≤ p.remaining)
    (Error.Located 0 size) (fun _ => Stands size) (do
      modify (advance 1)
      return a : Parse α) :=
  (Exits.modify fun _ h => h.1.advance h.2).bind fun _ => Safe.pure a

theorem safe_takeIf (code : UInt8) : Safe size (takeIf code) :=
  exits_peek.bind fun _ =>
    Exits.ite (fun _ => safe_step true) fun _ => Exits.pure fun _ h => h.1

theorem safe_arrayShape : Safe size arrayShape :=
  safe_cu32.bind fun rank => (safe_checkRank rank).bind fun _ =>
    (safe_counted safe_cu32).bind fun _ => (safe_counted safe_ci32).bind fun _ => Safe.pure _

theorem safe_genericKind : Safe size genericKind :=
  Safe.position_bind fun _ hstart => safe_u8.bind fun _ => safe_orFail _ hstart

/-! ## Types -/

theorem safe_resetting {reset : Parser → Parser} {inner : Parse α} (h : Safe size inner)
    (hreset : ∀ p, Stands size p → Stands size (reset p)) : Safe size (resetting reset inner) where
  ok p a p' hp hrun := by
    obtain ⟨q, hq, rfl⟩ := resetting_ok_iff.mp hrun
    exact hreset q (h.ok p a q hp hq)
  error p e p' hp hrun := by
    cases hinner : inner.run p with
    | ok a q =>
        rw [resetting_of_ok hinner] at hrun
        cases hrun
    | error e' q =>
        rw [resetting_of_error hinner] at hrun
        cases hrun
        exact h.error p e q hp hinner

theorem safe_pinnedType {type_ : Parse SigType} (h : Safe size type_) (hstart : start ≤ size) :
    Safe size (pinnedType type_ start) := by
  refine Safe.get_bind fun p _ => ?_
  refine Exits.ite (fun _ => Exits.throw (located_errAt hstart)) fun _ => ?_
  have hset : Safe size (modify (setPinned true) : Parse PUnit) :=
    Exits.modify fun _ hp => ⟨hp.size_eq, hp.inside⟩
  have hinner : Safe size (resetting (setPinned false) type_) :=
    safe_resetting h fun _ hp => ⟨hp.size_eq, hp.inside⟩
  exact hset.bind fun _ => hinner.bind fun inner => Safe.pure _

theorem safe_typeBody {type_ : Parse SigType} {methodSig : Parse MethodSig}
    (hT : Safe size type_) (hM : Safe size methodSig) (hstart : start ≤ size) (byte : UInt8) :
    Safe size (typeBody type_ methodSig start byte) := by
  have hmods (f : List CustomMod → SigType → SigType) :
      Safe size (customMods >>= fun mods => type_ >>= fun ty => pure (f mods ty)) :=
    safe_customMods.bind fun _ => hT.bind fun _ => Safe.pure _
  unfold typeBody
  cases SigType.primitive? byte with
  | some primitive => exact Safe.pure primitive
  | none =>
      -- one branch of the chain after another
      refine Exits.ite (fun _ => hmods .ptr) fun _ => ?_
      refine Exits.ite (fun _ => hT.bind fun _ => Safe.pure _) fun _ => ?_
      refine Exits.ite (fun _ => safe_typeToken.bind fun _ => Safe.pure _) fun _ => ?_
      refine Exits.ite (fun _ => safe_typeToken.bind fun _ => Safe.pure _) fun _ => ?_
      refine Exits.ite (fun _ => safe_cu32.bind fun _ => Safe.pure _) fun _ => ?_
      refine Exits.ite (fun _ => safe_cu32.bind fun _ => Safe.pure _) fun _ => ?_
      refine Exits.ite (fun _ => hmods .szArray) fun _ => ?_
      refine Exits.ite (fun _ => ?_) fun _ => ?_
      · exact hT.bind fun _ => safe_arrayShape.bind fun _ => Safe.pure _
      refine Exits.ite (fun _ => ?_) fun _ => ?_
      · refine safe_genericKind.bind fun isValueType => ?_
        refine safe_typeToken.bind fun definition => ?_
        exact (safe_counted hT).bind fun _ => Safe.pure _
      refine Exits.ite (fun _ => hM.bind fun _ => Safe.pure _) fun _ => ?_
      refine Exits.ite (fun _ => safe_pinnedType hT hstart) fun _ => ?_
      refine Exits.ite (fun _ => ?_) fun _ => ?_
      · exact Exits.throw (located_errAt hstart)
      · exact Exits.throw (located_errAt hstart)

theorem safe_typeInner {type_ : Parse SigType} {methodSig : Parse MethodSig}
    (hT : Safe size type_) (hM : Safe size methodSig) : Safe size (typeInner type_ methodSig) := by
  refine safe_customMods.bind fun leading => ?_
  refine Exits.ite (fun _ => ?_) fun _ => hT.bind fun _ => Safe.pure _
  refine Safe.position_bind fun start hstart => ?_
  exact safe_u8.bind fun byte => safe_typeBody hT hM hstart byte

/-! ## Parameters and methods -/

theorem safe_param {type_ : Parse SigType} (hT : Safe size type_) : Safe size (param type_) :=
  safe_customMods.bind fun _ => (safe_takeIf _).bind fun _ => hT.bind fun _ => Safe.pure _

theorem safe_localVar {type_ : Parse SigType} (hT : Safe size type_) :
    Safe size (localVar type_) := by
  refine (safe_takeIf _).bind fun bare => ?_
  refine Exits.ite (fun _ => Safe.pure _) fun _ => ?_
  refine safe_customMods.bind fun mods => ?_
  refine (safe_takeIf _).bind fun pinned => ?_
  refine Exits.bind (Q := fun _ => Stands size) ?_ fun more => ?_
  · exact Exits.ite (fun _ => safe_customMods) fun _ => Safe.pure []
  refine (safe_takeIf _).bind fun byRef => ?_
  refine hT.bind fun ty => ?_
  refine Safe.get_bind fun p hp => ?_
  exact (safe_check hp.located_err).bind fun _ => Safe.pure _

theorem safe_methodHeader (hstart : start ≤ size) : Safe size (methodHeader start) := by
  refine safe_u8.bind fun byte => ?_
  refine Exits.bind (Q := fun _ => Stands size) ?_ fun count => safe_orFail _ hstart
  exact Exits.ite (fun _ => safe_cu32) fun _ => Safe.pure 0

theorem safe_stepSentinel (past : Bool) : Safe size (stepSentinel past) := by
  refine exits_peek.bind fun byte => ?_
  refine Exits.ite (fun _ => ?_) fun _ => Exits.pure fun _ h => h.1
  refine Exits.ite (fun _ => ?_) fun _ => safe_step true
  exact Exits.get_bind fun p hp => Exits.throw hp.1.located_err

theorem safe_methodParams {param : Parse Param} (h : Safe size param) :
    ∀ n past, Safe size (methodParams param n past)
  | 0, _ => Safe.pure _
  | n + 1, past => by
      refine (safe_stepSentinel past).bind fun past => ?_
      refine h.bind fun first => ?_
      exact (safe_methodParams h n past).bind fun others => Safe.pure _

theorem safe_since (start : Nat) : Safe size (since start) :=
  Safe.get_bind fun _ _ => Exits.ite (fun _ => Safe.pure _) fun _ => Safe.pure _

theorem safe_methodSigInner {param : Parse Param} (h : Safe size param) :
    Safe size (methodSigInner param) := by
  refine Safe.position_bind fun start hstart => ?_
  refine Exits.bind (Q := fun _ => Stands size) ?_ fun method => ?_
  · refine (safe_methodHeader hstart).bind fun header => ?_
    refine safe_boundedCount.bind fun count => ?_
    refine h.bind fun returnType => ?_
    exact (safe_methodParams h count false).bind fun lists => Safe.pure _
  · exact (safe_since start).bind fun raw => Safe.pure _

/-! ## The recursion -/

theorem safe_enter : Safe size enter := by
  refine Exits.bind (Q := fun _ => Stands size) ?_ fun _ => ?_
  · exact Exits.modify fun _ hp => ⟨hp.size_eq, hp.inside⟩
  refine Safe.get_bind fun p hp => ?_
  exact Exits.ite (fun _ => Safe.pure ()) fun _ => Exits.throw hp.located_err

theorem safe_nested {inner : Parse α} (h : Safe size inner) : Safe size (nested inner) :=
  safe_enter.bind fun _ => safe_resetting h fun _ hp => ⟨hp.size_eq, hp.inside⟩

/-- Without a level left the method fails where it stands. -/
theorem safe_exhausted : Safe size (do
    enter
    let p ← get
    throw (p.err .recursionLimit) : Parse α) :=
  safe_enter.bind fun _ => Safe.get_bind fun _ hp => Exits.throw hp.located_err

theorem safe_type_methodSig (size : Nat) :
    ∀ fuel, Safe size (type_ fuel) ∧ Safe size (methodSig fuel) := by
  intro fuel
  induction fuel with
  | zero =>
      rw [type_, methodSig]
      exact ⟨safe_exhausted, safe_exhausted⟩
  | succ fuel ih =>
      obtain ⟨hT, hM⟩ := ih
      rw [type_, methodSig]
      exact ⟨safe_nested (safe_typeInner hT hM), safe_nested (safe_methodSigInner (safe_param hT))⟩

theorem safe_type (size fuel : Nat) : Safe size (type_ fuel) := (safe_type_methodSig size fuel).1

/-- A safe method fails inside the blob it was given. -/
theorem Safe.finish {blob : List UInt8} {options : SignatureOptions} {x : Parse α} {e : Error}
    (hx : Safe blob.length x) (h : finish (x.run (new blob options)) = .error e) :
    e.Located 0 blob.length := by
  cases hrun : x.run (new blob options) with
  | ok a p =>
      rw [hrun] at h
      cases h
  | error e' p =>
      rw [hrun] at h
      cases h
      exact hx.error _ _ _ (Stands.new blob options) hrun

end Parser

/-! ## The six parsers -/

section Six

open Cildec.Parser

variable {size : Nat} (limit : Nat) (blob : List UInt8)

theorem MethodSig.safe : Safe size (MethodSig.parser limit) := (safe_type_methodSig size limit).2

theorem FieldSig.safe : Safe size (FieldSig.parser limit blob) :=
  (safe_expectConvention _).bind fun _ => safe_customMods.bind fun _ =>
    (safe_type size limit).bind fun _ => Safe.pure _

theorem LocalVarSig.safe : Safe size (LocalVarSig.parser limit blob) :=
  (safe_expectConvention _).bind fun _ =>
    (safe_counted (safe_localVar (safe_type size limit))).bind fun _ => Safe.pure _

theorem PropertySig.safe : Safe size (PropertySig.parser limit blob) := by
  have hparam := safe_param (safe_type size limit)
  have hheader : Safe size PropertySig.header :=
    safe_u8.bind fun byte => (safe_check (located_errAt (Nat.zero_le size))).bind fun _ =>
      Safe.pure byte
  exact hheader.bind fun _ => safe_boundedCount.bind fun count => hparam.bind fun _ =>
    (Exits.repeatM hparam count).bind fun _ => Safe.pure _

theorem MethodSpecSig.safe : Safe size (MethodSpecSig.parser limit blob) :=
  (safe_expectConvention _).bind fun _ =>
    (safe_counted (safe_type size limit)).bind fun _ => Safe.pure _

theorem TypeSpecSig.safe : Safe size (TypeSpecSig.parser limit blob) :=
  (safe_type size limit).bind fun _ => Safe.pure _

end Six

end Cildec
