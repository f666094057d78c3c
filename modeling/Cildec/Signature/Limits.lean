import Cildec.Signature.Depth
import Cildec.Signature.Traced

/-!
# What the recursion limit bounds

A run of the parser from `Here` keeps its depth, and has read at least as many bytes as it has
opened levels.

* `Moves`: what the methods without nesting do to the cursor;
* `follows_type_methodSig`: the recursive methods, by induction on the levels that are left.
  More levels than the limit allows change nothing;
* `recursion_limit_bounds`: the events of all six parsers, and how deep their signatures nest.
-/

namespace Cildec

open Wire Logged Cildec.Parser

/-- What the limit allows in a blob of `size` bytes. -/
def Event.Within (limit size : Nat) : Event → Prop
  | .entered depth => depth ≤ limit + 1 ∧ depth ≤ size + 1
  | .read before after => after = before
  | .mods count => count ≤ limit
  | .reserved capacity left => capacity ≤ left
  | .reservedParams capacity counted _ => capacity ≤ counted

/-- No more elements are reserved than bytes are left at that point. -/
def Event.Fits : Event → Prop
  | .reserved capacity left => capacity ≤ left
  | .reservedParams capacity _ left => capacity ≤ left
  | _ => True

instance (limit size : Nat) : DecidablePred (Event.Within limit size)
  | .entered depth => inferInstanceAs (Decidable (depth ≤ limit + 1 ∧ depth ≤ size + 1))
  | .read before after => inferInstanceAs (Decidable (after = before))
  | .mods count => inferInstanceAs (Decidable (count ≤ limit))
  | .reserved capacity left => inferInstanceAs (Decidable (capacity ≤ left))
  | .reservedParams capacity counted _ => inferInstanceAs (Decidable (capacity ≤ counted))

instance : DecidablePred Event.Fits
  | .reserved capacity left => inferInstanceAs (Decidable (capacity ≤ left))
  | .reservedParams capacity _ left => inferInstanceAs (Decidable (capacity ≤ left))
  | .entered _ | .read _ _ | .mods _ => inferInstanceAs (Decidable True)

namespace Traced

/-! ## Where a parser stands -/

/-- A parser `depth` levels deep in a blob of `size` bytes. Each level but the last `slack` ones
has read a byte of its own. -/
structure Here (limit depth slack size : Nat) (p : Parser) : Prop where
  limit_eq : p.options.limit = limit
  depth_eq : p.depth = depth
  size_eq : p.data.length = size
  inside : p.pos ≤ size
  fed : depth ≤ p.pos + slack

variable {α β : Type} {limit depth slack size n : Nat} {p : Parser} {Q : Event → Prop}

theorem Here.advance {k : Nat} (h : Here limit depth slack size p) (hn : n ≤ k)
    (hk : k ≤ p.remaining) : Here limit depth (slack - n) size (p.advance k) := by
  have hinside := h.inside
  have hfed := h.fed
  have hsize : p.remaining = size - p.pos := congrArg (· - p.pos) h.size_eq
  refine ⟨h.limit_eq, h.depth_eq, h.size_eq, ?_, ?_⟩
  · show p.pos + k ≤ size
    omega
  · show depth ≤ p.pos + k + (slack - n)
    omega

theorem here_new (blob : List UInt8) (options : SignatureOptions) :
    Here options.limit 0 0 blob.length (Parser.new blob options) :=
  ⟨rfl, rfl, rfl, Nat.zero_le _, Nat.le_refl 0⟩

/-! ## What the methods without nesting do -/

/-- Where `x` succeeds it has stepped over `n` bytes or more, and changed nothing else. -/
def Moves (n : Nat) (x : Parse α) : Prop :=
  ∀ p a p', x.run p = .ok a p' → ∃ k, n ≤ k ∧ k ≤ p.remaining ∧ p' = p.advance k

theorem length_le_remaining {p' : Parser} {bs : List UInt8} (h : p.rest = bs ++ p'.rest) :
    bs.length ≤ p.remaining := by
  rw [← rest_length, h, List.length_append]
  exact Nat.le_add_right _ _

theorem Moves.of_accepts {x : Parse α} {R : Grammar α}
    (h : ∀ limit depth seen, Accepts (At limit depth seen) x R)
    (hn : ∀ a bs ms, R a bs ms → n ≤ bs.length) : Moves n x := by
  intro p a p' hrun
  obtain ⟨bs, ms, hrest, rfl, hR, _⟩ := (h _ _ _).sound p a p' ⟨rfl, rfl, rfl⟩ hrun
  exact ⟨bs.length, hn a bs ms hR, length_le_remaining hrest, rfl⟩

theorem Moves.of_acceptsAhead {x : Parse α} {R : α → List UInt8 → Option UInt8 → Prop}
    (h : ∀ limit depth seen, AcceptsAhead (At limit depth seen) x R) : Moves 0 x := by
  intro p a p' hrun
  obtain ⟨bs, hrest, rfl, _⟩ := (h _ _ _).sound p a p' ⟨rfl, rfl, rfl⟩ hrun
  exact ⟨bs.length, Nat.zero_le _, length_le_remaining hrest, rfl⟩

theorem moves_u8 : Moves 1 u8 := .of_accepts (fun _ _ _ => accepts_u8) byteGrammar_nonempty

theorem moves_cu32 : Moves 1 cu32 :=
  .of_accepts (fun _ _ _ => accepts_cu32) cu32Grammar_nonempty

theorem moves_ci32 : Moves 1 ci32 :=
  .of_accepts (fun _ _ _ => accepts_ci32) ci32Grammar_nonempty

theorem moves_typeToken : Moves 1 typeToken :=
  .of_accepts (fun _ _ _ => accepts_typeToken) tokenGrammar_nonempty

theorem moves_genericKind : Moves 1 genericKind :=
  .of_accepts (fun _ _ _ => accepts_position_bind fun _ => accepts_u8.filterMap _ _)
    (byteGrammar_nonempty.filterMap _)

theorem moves_expectConvention (expected : UInt8) : Moves 1 (expectConvention expected) :=
  .of_accepts (fun limit depth seen => accepts_expectConvention limit depth seen expected)
    (byteGrammar_nonempty.bind_left _)

theorem moves_methodHeader (start : Nat) : Moves 1 (methodHeader start) :=
  .of_accepts (fun _ _ _ => accepts_methodHeader start) (byteGrammar_nonempty.bind_left _)

theorem moves_takeIf (code : UInt8) : Moves 0 (takeIf code) :=
  .of_acceptsAhead fun _ _ _ => acceptsAhead_takeIf code

theorem moves_stepSentinel (past : Bool) : Moves 0 (stepSentinel past) :=
  .of_acceptsAhead fun _ _ _ => acceptsAhead_stepSentinel past

theorem moves_header : Moves 1 PropertySig.header := by
  refine .of_accepts (R := conventionGrammar CallingConvention.property) (fun limit depth seen => ?_)
    (byteGrammar_nonempty.bind_left _)
  exact Accepts.bind (stable_at limit depth seen) accepts_u8
    fun _ => Accepts.check fun _ => Accepts.pure _

theorem silent_moves {x : Parse α} (h : Moves n x) :
    Traces (Here limit depth slack size) Q (fun _ => Here limit depth (slack - n) size)
      (silent x) x := by
  refine Traces.silent fun p hp a p' hrun => ?_
  obtain ⟨k, hn, hk, rfl⟩ := h p a p' hrun
  exact hp.advance hn hk

theorem silent_boundedCount :
    Traces (Here limit depth slack size) Q
      (fun count p => Here limit depth (slack - 1) size p ∧ count ≤ p.remaining)
      (silent boundedCount) boundedCount := by
  refine Traces.silent fun p hp count p' hrun => ?_
  obtain ⟨hcount, hle⟩ := boundedCount_ok_iff.mp hrun
  obtain ⟨k, hn, hk, rfl⟩ := moves_cu32 p count p' hcount
  exact ⟨hp.advance hn hk, hle⟩

/-! ## Modifiers and counted items -/

/-- At most `limit` modifiers are read in one run, and each takes a byte. -/
theorem traces_customMods :
    Traces (Here limit depth slack size) (Event.Within limit size)
      (fun mods p => Here limit depth slack size p ∧
        (mods ≠ [] → Here limit depth (slack - 1) size p)) customMods Parser.customMods := by
  refine Traces.then_log (R := fun mods p => mods.length ≤ limit ∧ Here limit depth slack size p ∧
    (mods ≠ [] → Here limit depth (slack - 1) size p)) ?_ (fun _ _ h => h.1) fun _ _ h => h.2
  refine Traces.silent fun p hp mods p' hrun => ?_
  have hat : At limit p.depth p.pinnedSeen p := ⟨hp.limit_eq, rfl, rfl⟩
  obtain ⟨bs, hrest, rfl, hmods, hlen, _⟩ :=
    (acceptsAhead_customMods limit p.depth p.pinnedSeen).sound p mods p' hat hrun
  have hle : bs.length ≤ p.remaining := length_le_remaining hrest
  refine ⟨hlen, hp.advance (Nat.zero_le _) hle, fun hne => hp.advance ?_ hle⟩
  cases mods with
  | nil => exact absurd rfl hne
  | cons mod mods =>
      obtain ⟨b, cs, ds, _, _, _, rfl⟩ := hmods
      exact Nat.succ_le_succ (Nat.zero_le _)

theorem traces_counted {x : Traced α} {y : Parse α}
    (h : Traces (Here limit depth (slack - 1) size) (Event.Within limit size)
      (fun _ => Here limit depth (slack - 1) size) x y) :
    Traces (Here limit depth slack size) (Event.Within limit size)
      (fun _ => Here limit depth (slack - 1) size) (counted x) (Parser.counted y) := by
  refine silent_boundedCount.bind fun count => ?_
  refine Traces.log_bind (fun p hp => hp.2) ?_
  exact (Traces.repeatM h count).mono (fun p hp => hp.1) fun _ _ hp => hp

/-! ## Types -/

/-- The logged method runs as the plain one, from a depth to the same depth, and keeps to the
limit. -/
abbrev Follows (limit depth size : Nat) (x : Traced α) (y : Parse α) : Prop :=
  Traces (Here limit depth 0 size) (Event.Within limit size) (fun _ => Here limit depth 0 size) x y

theorem follows_customMods : Follows limit depth size customMods Parser.customMods :=
  traces_customMods.mono (fun _ hp => hp) fun _ _ hp => hp.1

theorem traces_resetting {P : Parser → Prop} {R R' : α → Parser → Prop}
    {reset : Parser → Parser} {x : Traced α} {y : Parse α} (h : Traces P Q R x y)
    (hreset : ∀ a p, R a p → R' a (reset p)) :
    Traces P Q R' (resetting reset x) (Parser.resetting reset y) where
  run p hp := by
    have hrun := h.run p hp
    rcases hx : x p with ⟨⟨a, q⟩ | ⟨e, q⟩, events⟩
    · rw [hx] at hrun
      rw [Parser.resetting_of_ok hrun.symm, resetting, hx]
    · rw [hx] at hrun
      rw [Parser.resetting_of_error hrun.symm, resetting, hx]
  events p hp i hi := by
    refine h.events p hp i ?_
    have hsame : (resetting reset x p).2 = (x p).2 := by
      rw [resetting]
      rcases x p with ⟨⟨a, p'⟩ | ⟨e, p'⟩, events⟩ <;> rfl
    exact hsame ▸ hi
  post p hp a p' hrun := by
    obtain ⟨q, hq, rfl⟩ := resetting_ok_iff.mp hrun
    exact hreset a q (h.post p hp a q hq)

theorem follows_arrayShape : Follows limit depth size arrayShape Parser.arrayShape := by
  have hrank : ∀ rank, Moves 0 (checkRank rank) := fun rank p a p' hrun =>
    ⟨0, Nat.le_refl 0, Nat.zero_le _, (checkRank_ok_iff.mp hrun).2⟩
  refine Traces.bind (silent_moves moves_cu32) fun rank => ?_
  refine Traces.bind (silent_moves (hrank rank)) fun _ => ?_
  refine Traces.bind (traces_counted (silent_moves moves_cu32)) fun sizes => ?_
  refine Traces.bind (traces_counted (silent_moves moves_ci32)) fun loBounds => ?_
  exact Traces.pure fun _ hp => hp

theorem follows_pinnedType {type_ : Traced SigType} {type' : Parse SigType}
    (h : Follows limit depth size type_ type') (start : Nat) :
    Follows limit depth size (pinnedType type_ start) (Parser.pinnedType type' start) := by
  have hset : ∀ seen p, Here limit depth 0 size p → Here limit depth 0 size (setPinned seen p) :=
    fun _ _ hp => ⟨hp.limit_eq, hp.depth_eq, hp.size_eq, hp.inside, hp.fed⟩
  refine Traces.bind (R := fun _ => Here limit depth 0 size) ?_ fun p => ?_
  · refine Traces.silent fun p hp q p' hrun => ?_
    cases hrun
    exact hp
  refine Traces.ite (fun _ => Traces.throw _) fun _ => ?_
  refine Traces.bind (R := fun _ => Here limit depth 0 size) ?_ fun _ => ?_
  · refine Traces.silent fun p hp _ p' hrun => ?_
    cases hrun
    exact hset true p hp
  refine Traces.bind (traces_resetting h fun _ p hp => hset false p hp) fun inner => ?_
  exact Traces.pure fun _ hp => hp

theorem follows_typeBody {type_ : Traced SigType} {type' : Parse SigType}
    {method : Traced MethodSig} {method' : Parse MethodSig}
    (hT : Follows limit depth size type_ type') (hM : Follows limit depth size method method')
    (start : Nat) (byte : UInt8) :
    Follows limit depth size (typeBody type_ method start byte)
      (Parser.typeBody type' method' start byte) := by
  have hpure : ∀ ty : SigType, Follows limit depth size (pure ty) (pure ty) :=
    fun _ => Traces.pure fun _ hp => hp
  have hmods : ∀ f : List CustomMod → SigType → SigType,
      Follows limit depth size (customMods >>= fun mods => type_ >>= fun ty => pure (f mods ty))
        (Parser.customMods >>= fun mods => type' >>= fun ty => pure (f mods ty)) :=
    fun f => follows_customMods.bind fun _ => hT.bind fun _ => hpure _
  unfold typeBody Parser.typeBody
  cases SigType.primitive? byte with
  | some primitive => exact hpure primitive
  | none =>
      -- one branch of the chain after another
      refine Traces.ite (fun _ => hmods .ptr) fun _ => ?_
      refine Traces.ite (fun _ => hT.bind fun _ => hpure _) fun _ => ?_
      refine Traces.ite (fun _ => (silent_moves moves_typeToken).bind fun _ => hpure _) fun _ => ?_
      refine Traces.ite (fun _ => (silent_moves moves_typeToken).bind fun _ => hpure _) fun _ => ?_
      refine Traces.ite (fun _ => (silent_moves moves_cu32).bind fun _ => hpure _) fun _ => ?_
      refine Traces.ite (fun _ => (silent_moves moves_cu32).bind fun _ => hpure _) fun _ => ?_
      refine Traces.ite (fun _ => hmods .szArray) fun _ => ?_
      refine Traces.ite (fun _ => ?_) fun _ => ?_
      · exact hT.bind fun _ => follows_arrayShape.bind fun _ => hpure _
      refine Traces.ite (fun _ => ?_) fun _ => ?_
      · refine Traces.bind (silent_moves moves_genericKind) fun isValueType => ?_
        refine Traces.bind (silent_moves moves_typeToken) fun definition => ?_
        exact (traces_counted hT).bind fun _ => hpure _
      refine Traces.ite (fun _ => hM.bind fun _ => hpure _) fun _ => ?_
      refine Traces.ite (fun _ => follows_pinnedType hT start) fun _ => ?_
      exact Traces.ite (fun _ => Traces.throw _) fun _ => Traces.throw _

/-- The level that was just opened is fed by the modifiers or by the element type byte. -/
theorem traces_typeInner {type_ : Traced SigType} {type' : Parse SigType}
    {method : Traced MethodSig} {method' : Parse MethodSig}
    (hT : Follows limit depth size type_ type') (hM : Follows limit depth size method method') :
    Traces (Here limit depth 1 size) (Event.Within limit size) (fun _ => Here limit depth 0 size)
      (typeInner type_ method) (Parser.typeInner type' method') := by
  refine Traces.bind traces_customMods fun leading => ?_
  refine Traces.ite (fun _ => ?_) fun hleading => ?_
  · refine Traces.bind (R := fun _ => Here limit depth 1 size) ?_ fun start => ?_
    · refine Traces.silent fun p hp start p' hrun => ?_
      cases hrun
      exact hp.1
    exact Traces.bind (silent_moves moves_u8) fun byte => follows_typeBody hT hM start byte
  · have hne : leading ≠ [] := fun h => hleading (List.isEmpty_iff.mpr h)
    refine Traces.bind (hT.mono (fun p hp => hp.2 hne) fun _ _ hp => hp) fun inner => ?_
    exact Traces.pure fun _ hp => hp

/-! ## Parameters and methods -/

theorem follows_param {type_ : Traced SigType} {type' : Parse SigType}
    (hT : Follows limit depth size type_ type') :
    Follows limit depth size (param type_) (Parser.param type') := by
  refine follows_customMods.bind fun mods => ?_
  refine Traces.bind (silent_moves (moves_takeIf _)) fun byRef => ?_
  exact hT.bind fun ty => Traces.pure fun _ hp => hp

theorem follows_localVar {type_ : Traced SigType} {type' : Parse SigType}
    (hT : Follows limit depth size type_ type') :
    Follows limit depth size (localVar type_) (Parser.localVar type') := by
  refine Traces.bind (silent_moves (moves_takeIf _)) fun bare => ?_
  refine Traces.ite (fun _ => Traces.pure fun _ hp => hp) fun _ => ?_
  refine follows_customMods.bind fun mods => ?_
  refine Traces.bind (silent_moves (moves_takeIf _)) fun pinned => ?_
  refine Traces.bind (R := fun _ => Here limit depth 0 size) ?_ fun more => ?_
  · exact Traces.ite (fun _ => follows_customMods) fun _ => Traces.pure fun _ hp => hp
  refine Traces.bind (silent_moves (moves_takeIf _)) fun byRef => ?_
  refine hT.bind fun ty => ?_
  refine Traces.bind (R := fun _ => Here limit depth 0 size) ?_ fun p => ?_
  · refine Traces.silent fun p hp q p' hrun => ?_
    cases hrun
    exact hp
  have hcheck : ∀ e, Moves 0 (check (ty.isPinned = false) e) := by
    intro e p a p' hrun
    unfold check at hrun
    by_cases hpinned : ty.isPinned = false
    · rw [if_pos hpinned] at hrun
      cases hrun
      exact ⟨0, Nat.le_refl 0, Nat.zero_le _, rfl⟩
    · rw [if_neg hpinned] at hrun
      cases hrun
  exact Traces.bind (silent_moves (hcheck _)) fun _ => Traces.pure fun _ hp => hp

theorem follows_methodParams {x : Traced Param} {y : Parse Param}
    (h : Follows limit depth size x y) :
    ∀ n past, Follows limit depth size (methodParams x n past) (Parser.methodParams y n past)
  | 0, _ => Traces.pure fun _ hp => hp
  | n + 1, past => by
      refine Traces.bind (silent_moves (moves_stepSentinel past)) fun past => ?_
      refine h.bind fun first => ?_
      exact (follows_methodParams h n past).bind fun others => Traces.pure fun _ hp => hp

/-- A vector of parameters is reserved after the return type, for a count that was bounded in
front of it. -/
theorem follows_countedParams {x : Traced α} {y : Parse α} {f : Nat → α → Traced β}
    {g : Nat → α → Parse β} (hx : Follows limit depth size x y)
    (hf : ∀ count a, Follows limit depth size (f count a) (g count a)) :
    Follows limit depth size
      (do
        let count ← silent boundedCount
        let counted ← read Parser.remaining
        let a ← x
        log fun p => .reservedParams count counted p.remaining
        f count a)
      (do
        let count ← boundedCount
        let a ← y
        g count a) := by
  refine silent_boundedCount.bind fun count => Traces.read_bind fun counted => ?_
  refine Traces.of_pre fun p hp => ?_
  -- the count was bounded by the bytes in front of the return type
  have hle : count ≤ counted := hp.2 ▸ hp.1.2
  refine Traces.mono ?_ (fun p hp => hp.1.1) fun _ _ hp => hp
  exact hx.bind fun a => Traces.log_bind (fun _ _ => hle) (hf count a)

/-- The header feeds the level that was just opened. -/
theorem traces_methodSigInner {x : Traced Param} {y : Parse Param}
    (h : Follows limit depth size x y) :
    Traces (Here limit depth 1 size) (Event.Within limit size) (fun _ => Here limit depth 0 size)
      (methodSigInner x) (Parser.methodSigInner y) := by
  refine Traces.bind (R := fun _ => Here limit depth 1 size) ?_ fun start => ?_
  · refine Traces.silent fun p hp start p' hrun => ?_
    cases hrun
    exact hp
  have hparts : Traces (Here limit depth 1 size) (Event.Within limit size)
      (fun _ => Here limit depth 0 size) (methodParts x start) (Parser.methodParts y start) := by
    refine Traces.bind (silent_moves (moves_methodHeader start)) fun header => ?_
    refine follows_countedParams h fun count returnType => ?_
    exact (follows_methodParams h count false).bind fun lists => Traces.pure fun _ hp => hp
  refine hparts.bind fun method => ?_
  refine Traces.bind (R := fun _ => Here limit depth 0 size) ?_ fun raw => ?_
  · refine Traces.silent fun p hp raw p' hrun => ?_
    obtain ⟨q, q', hget, hraw⟩ := run_bind_ok_iff.mp hrun
    cases hget
    by_cases hin : start ≤ p.pos ∧ p.pos ≤ p.data.length
    · rw [if_pos hin] at hraw
      cases hraw
      exact hp
    · rw [if_neg hin] at hraw
      cases hraw
      exact hp
  · exact Traces.pure fun _ hp => hp

/-! ## The recursion -/

/-- The counter after `enter`, whether or not the limit allows it. -/
theorem finalState_enter (p : Parser) :
    finalState (Parser.enter.run p) = { p with depth := p.depth + 1 } := by
  by_cases h : p.depth < p.options.limit
  · rw [enter_run h]
    rfl
  · have hgt : ¬ p.depth + 1 ≤ p.options.limit := by omega
    simp [Parser.enter, hgt, finalState]

theorem Here.entered_within (h : Here limit depth 0 size p) (hdepth : depth ≤ limit) :
    Event.Within limit size (.entered (finalState (Parser.enter.run p)).depth) := by
  have hinside := h.inside
  have hfed := h.fed
  rw [finalState_enter]
  show p.depth + 1 ≤ limit + 1 ∧ p.depth + 1 ≤ size + 1
  rw [h.depth_eq]
  omega

/-- One level deeper, with a byte to read for it. -/
theorem traces_enter (hdepth : depth < limit) :
    Traces (Here limit depth 0 size) (Event.Within limit size)
      (fun _ => Here limit (depth + 1) 1 size) enter Parser.enter := by
  refine Traces.watched (fun p hp => hp.entered_within (Nat.le_of_lt hdepth)) ?_
  intro p hp _ p' hrun
  have hlt : p.depth < p.options.limit := by
    rw [hp.depth_eq, hp.limit_eq]
    exact hdepth
  rw [enter_run hlt] at hrun
  cases hrun
  have hfed := hp.fed
  refine ⟨hp.limit_eq, congrArg (· + 1) hp.depth_eq, hp.size_eq, hp.inside, ?_⟩
  show depth + 1 ≤ p.pos + 1
  omega

/-- At the limit `enter` fails. -/
theorem traces_enter_limit :
    Traces (Here limit limit 0 size) (Event.Within limit size) (fun _ _ => False)
      enter Parser.enter := by
  refine Traces.watched (fun p hp => hp.entered_within (Nat.le_refl limit)) ?_
  intro p hp _ p' hrun
  obtain ⟨e, q, herror⟩ := enter_run_error (p := p) (by rw [hp.depth_eq, hp.limit_eq])
  rw [herror] at hrun
  cases hrun

theorem follows_nested {x : Traced α} {y : Parse α} (hdepth : depth < limit)
    (h : Traces (Here limit (depth + 1) 1 size) (Event.Within limit size)
      (fun _ => Here limit (depth + 1) 0 size) x y) :
    Follows limit depth size (nested x) (Parser.nested y) := by
  refine Traces.read_bind fun before => Traces.of_pre fun p hp => ?_
  have hbefore : before = depth := hp.2.symm.trans hp.1.depth_eq
  refine Traces.bind ((traces_enter hdepth).mono (fun p hp => hp.1) fun _ _ hp => hp) fun _ => ?_
  refine Traces.then_log (R := fun _ => Here limit depth 0 size) ?_ ?_ fun _ _ hp => hp
  -- the body leaves the counter one too high, `leave` takes it back
  · refine traces_resetting h fun _ p hp => ?_
    have hfed := hp.fed
    have hleave : p.depth - 1 = depth := by
      rw [hp.depth_eq]
      rfl
    exact ⟨hp.limit_eq, hleave, hp.size_eq, hp.inside, by show depth ≤ p.pos + 0; omega⟩
  · intro _ p hp
    exact hp.depth_eq.trans hbefore.symm

theorem follows_enter_limit {f : Unit → Traced α} {g : Unit → Parse α} :
    Follows limit limit size (enter >>= f) (Parser.enter >>= g) :=
  traces_enter_limit.bind fun _ => Traces.of_pre fun _ h => h.elim

theorem follows_nested_limit {x : Traced α} {g : Unit → Parse α} :
    Follows limit limit size (nested x) (Parser.enter >>= g) :=
  Traces.read_bind fun _ => follows_enter_limit.mono (fun _ hp => hp.1) fun _ _ hp => hp

/-- However many levels the two recursions are given, if only the limit allows no more: by
induction on those that it still allows. -/
theorem follows_type_methodSig (limit size : Nat) : ∀ left depth, left + depth = limit →
    ∀ n m, limit ≤ n + depth → limit ≤ m + depth →
      Follows limit depth size (type_ n) (Parser.type_ m) ∧
        Follows limit depth size (methodSig n) (Parser.methodSig m) := by
  intro left
  induction left with
  | zero =>
      intro depth hdepth n m _ _
      obtain rfl : depth = limit := by omega
      -- at the limit `enter` fails, however many levels the recursion still has
      cases n with
      | zero =>
          rw [type_, methodSig]
          cases m with
          | zero =>
              rw [Parser.type_, Parser.methodSig]
              exact ⟨follows_enter_limit, follows_enter_limit⟩
          | succ m =>
              rw [Parser.type_, Parser.methodSig]
              exact ⟨follows_enter_limit, follows_enter_limit⟩
      | succ n =>
          rw [type_, methodSig]
          cases m with
          | zero =>
              rw [Parser.type_, Parser.methodSig]
              exact ⟨follows_nested_limit, follows_nested_limit⟩
          | succ m =>
              rw [Parser.type_, Parser.methodSig]
              exact ⟨follows_nested_limit, follows_nested_limit⟩
  | succ left ih =>
      intro depth hdepth n m hn hm
      obtain ⟨n, rfl⟩ : ∃ n', n = n' + 1 := ⟨n - 1, by omega⟩
      obtain ⟨m, rfl⟩ : ∃ m', m = m' + 1 := ⟨m - 1, by omega⟩
      obtain ⟨hT, hM⟩ := ih (depth + 1) (by omega) n m (by omega) (by omega)
      rw [type_, methodSig, Parser.type_, Parser.methodSig]
      exact ⟨follows_nested (by omega) (traces_typeInner hT hM),
        follows_nested (by omega) (traces_methodSigInner (follows_param hT))⟩

end Traced

/-! ## The six parsers -/

/-- What the recursion limit bounds when `parser` reads a blob, however many levels its
recursion is given beyond those that the limit allows. -/
structure Limited {α : Type} (traced : Nat → Traced α) (parser : Nat → Parse α)
    (shallow : Nat → α → Prop) (options : SignatureOptions) (blob : List UInt8) : Prop where
  ends : ∀ n m, options.limit ≤ n → options.limit ≤ m →
    (traced n (Parser.new blob options)).1 = (parser m).run (Parser.new blob options)
  within : ∀ n, options.limit ≤ n → ∀ event ∈ (traced n (Parser.new blob options)).2,
    event.Within options.limit blob.length
  nests : ∀ sig p, (parser options.limit).run (Parser.new blob options) = .ok sig p →
    shallow options.limit sig

theorem Limited.of_follows {α : Type} {options : SignatureOptions} {blob : List UInt8}
    {traced : Nat → Traced α} {parser : Nat → Parse α} {shallow : Nat → α → Prop}
    {R : Grammar α}
    (h : ∀ n m, options.limit ≤ n → options.limit ≤ m →
      Traced.Follows options.limit 0 blob.length (traced n) (parser m))
    (haccepts : Accepts (At options.limit 0 false) (parser options.limit) R)
    (hnests : R.Each fun sig _ => shallow options.limit sig) :
    Limited traced parser shallow options blob where
  ends n m hn hm := (h n m hn hm).run _ (Traced.here_new blob options)
  within n hn := (h n n hn hn).events _ (Traced.here_new blob options)
  nests sig p hrun := by
    obtain ⟨ms, hR⟩ := Parser.spelled_of_run haccepts hrun
    exact hnests sig _ ms hR

/-- Whatever the recursion limit and the blob, all six parsers come to an end, they open at most
one level more than the limit (and than the blob has bytes), every type and method signature
gives its level back, every list of modifiers keeps to the limit, and every vector is reserved
for no more elements than bytes were left when its count was read. The types of a signature nest
no deeper than the limit, but for a bare `TYPEDBYREF` local. -/
theorem recursion_limit_bounds (options : SignatureOptions) (blob : List UInt8) :
    Limited MethodSig.traced MethodSig.parser (fun limit sig => sig.depth ≤ limit) options blob ∧
    Limited (FieldSig.traced · blob) (FieldSig.parser · blob)
      (fun limit sig => sig.type_.depth ≤ limit) options blob ∧
    Limited (LocalVarSig.traced · blob) (LocalVarSig.parser · blob)
      (fun limit sig => ∀ l ∈ sig.locals, l.type_.depth ≤ limit ∨ l = .bare) options blob ∧
    Limited (PropertySig.traced · blob) (PropertySig.parser · blob)
      (fun limit sig => sig.returnType.depth ≤ limit ∧ ∀ param ∈ sig.params, param.depth ≤ limit)
      options blob ∧
    Limited (MethodSpecSig.traced · blob) (MethodSpecSig.parser · blob)
      (fun limit sig => ∀ ty ∈ sig.args, ty.depth ≤ limit) options blob ∧
    Limited (TypeSpecSig.traced · blob) (TypeSpecSig.parser · blob)
      (fun limit sig => sig.type_.depth ≤ limit) options blob := by
  have hT : ∀ n m, options.limit ≤ n → options.limit ≤ m →
      Traced.Follows options.limit 0 blob.length (Traced.type_ n) (type_ m) := fun n m hn hm =>
    (Traced.follows_type_methodSig options.limit blob.length options.limit 0 rfl n m hn hm).1
  have hpure : ∀ {α : Type} (a : α),
      Traced.Follows options.limit 0 blob.length (pure a) (pure a) :=
    fun _ => Traces.pure fun _ hp => hp
  have hconvention : ∀ {α : Type} (expected : UInt8) {f : UInt8 → Traced α} {g : UInt8 → Parse α},
      (∀ byte, Traced.Follows options.limit 0 blob.length (f byte) (g byte)) →
      Traced.Follows options.limit 0 blob.length (silent (expectConvention expected) >>= f)
        (expectConvention expected >>= g) := fun expected _ _ h =>
    Traces.bind (Traced.silent_moves (Traced.moves_expectConvention expected)) h
  refine ⟨?_, ?_, ?_, ?_, ?_, ?_⟩
  · refine .of_follows (fun n m hn hm => ?_) (MethodSig.accepts options.limit)
      (typeGrammar_depth options.limit options.limit false).2
    exact (Traced.follows_type_methodSig options.limit blob.length options.limit 0 rfl n m hn hm).2
  · refine .of_follows (fun n m hn hm => ?_) (FieldSig.accepts options.limit blob)
      (FieldSig.grammar_each (SigType.grammar_depth _) blob)
    exact hconvention _ fun _ => Traced.follows_customMods.bind fun mods =>
      (hT n m hn hm).bind fun ty => hpure _
  · refine .of_follows (fun n m hn hm => ?_) (LocalVarSig.accepts options.limit blob)
      (LocalVarSig.grammar_each (SigType.grammar_depth _) blob)
    exact hconvention _ fun _ =>
      (Traced.traces_counted (Traced.follows_localVar (hT n m hn hm))).bind fun locals => hpure _
  · refine .of_follows (fun n m hn hm => ?_) (PropertySig.accepts options.limit blob)
      (PropertySig.grammar_depth options.limit blob)
    have hparam := Traced.follows_param (hT n m hn hm)
    refine Traces.bind (Traced.silent_moves Traced.moves_header) fun byte => ?_
    exact Traced.follows_countedParams hparam fun count returnType =>
      (Traces.repeatM hparam count).bind fun params => hpure _
  · refine .of_follows (fun n m hn hm => ?_) (MethodSpecSig.accepts options.limit blob)
      (MethodSpecSig.grammar_each (SigType.grammar_depth _) blob)
    exact hconvention _ fun _ => (Traced.traces_counted (hT n m hn hm)).bind fun args => hpure _
  · refine .of_follows (fun n m hn hm => ?_) (TypeSpecSig.accepts options.limit blob)
      (TypeSpecSig.grammar_each (SigType.grammar_depth _) blob)
    exact (hT n m hn hm).bind fun ty => hpure _

/-- A run that opens three levels where the limit allows two. -/
example : (TypeSpecSig.traced 2 [0x0F, 0x0F, 0x08] (Parser.new [0x0F, 0x0F, 0x08] ⟨2⟩)).2 =
    [.entered 1, .mods 0, .mods 0, .entered 2, .mods 0, .mods 0, .entered 3] := by decide

/-- A method of two parameters reserves both when one byte is left, behind its return type; and
no level is opened for a `TYPEDBYREF` local, which a limit of 0 does not keep out. -/
theorem reservations_outrun_blob :
    (¬ ∀ (options : SignatureOptions) (blob : List UInt8),
      ∀ event ∈ (MethodSig.traced options.limit (Parser.new blob options)).2, event.Fits) ∧
    ¬ ∀ (options : SignatureOptions) (blob : List UInt8) (sig : LocalVarSig),
      LocalVarSig.parseWith blob options = .ok sig →
        ∀ l ∈ sig.locals, l.type_.depth ≤ options.limit := by
  constructor
  · intro h
    exact absurd (h ⟨2⟩ [0x00, 0x02, 0x01, 0x08] (.reservedParams 2 2 1) (by decide)) (by decide)
  · intro h
    have hparse : LocalVarSig.parseWith [0x07, 0x01, 0x16] ⟨0⟩ =
        .ok ⟨[0x07, 0x01, 0x16], [.bare]⟩ := rfl
    exact absurd (h ⟨0⟩ _ _ hparse .bare List.mem_cons_self) (by decide)

end Cildec
