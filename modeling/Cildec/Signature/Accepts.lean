import Cildec.Signature.Grammar

/-!
# The signature grammar (ECMA-335 II.23.2.1 to II.23.2.15)

The grammars of types, locals, parameters and method signatures. A type grammar `T` is given
for a parser below a `PINNED` and for one that is not.

* `accepts_type_methodSig`: the recursive methods accept `typeGrammar` and `methodGrammar`,
  by induction on the depth that is left.
-/

namespace Cildec.Parser

open Wire

variable {limit depth : Nat} {seen : Bool} {ty : Parse SigType} {method : Parse MethodSig}
  {T : Bool → Grammar SigType} {M : Bool → Grammar MethodSig}

/-! ## Array shapes -/

def arrayShapeGrammar : Grammar ArrayShape :=
  cu32Grammar.bind fun rank => Grammar.need (rank - 1) <|
    (countedGrammar cu32Grammar).bind fun sizes =>
      (countedGrammar ci32Grammar).map fun loBounds => ⟨rank, sizes, loBounds⟩

theorem checkRank_ok_iff {rank : Nat} {p p' : Parser} :
    (checkRank rank).run p = .ok () p' ↔ rank - 1 ≤ p.rest.length ∧ p' = p := by
  rw [rest_length, checkRank, EStateM.run_bind, EStateM.run_get]
  by_cases h : rank ≤ p.remaining + 1
  · simp only [if_pos h]
    constructor
    · intro hrun
      cases hrun
      exact ⟨by omega, rfl⟩
    · rintro ⟨_, rfl⟩
      rfl
  · simp only [if_neg h]
    constructor
    · intro hrun
      cases hrun
    · rintro ⟨hle, _⟩
      omega

theorem accepts_arrayShape : Accepts (At limit depth seen) arrayShape arrayShapeGrammar := by
  have hP := stable_at limit depth seen
  refine Accepts.bind hP accepts_cu32 fun rank => ?_
  refine Accepts.need (fun _ _ _ => checkRank_ok_iff) ?_
  refine Accepts.bind hP (accepts_counted hP accepts_cu32 cu32Grammar_nonempty) fun sizes => ?_
  exact (accepts_counted hP accepts_ci32 ci32Grammar_nonempty).map _

/-! ## Types -/

/-- Modifiers, and then a spelling that does not start with one. -/
def modsThen (limit : Nat) (S : List CustomMod → Grammar α) : Grammar α :=
  Grammar.ahead (ModsAhead limit) S

theorem accepts_modsThen {f : List CustomMod → Parse α} {S : List CustomMod → Grammar α}
    (hf : ∀ mods, Accepts (At limit depth seen) (f mods) (S mods))
    (hS : ∀ mods, (S mods).Nonempty) :
    Accepts (At limit depth seen) (customMods >>= f) (modsThen limit S) :=
  AcceptsAhead.bind (stable_at limit depth seen) (acceptsAhead_customMods limit depth seen) hf
    fun mods => .inl (hS mods)

/-- What follows an element type byte. -/
def bodyGrammar (limit : Nat) (T : Bool → Grammar SigType) (M : Bool → Grammar MethodSig)
    (seen : Bool) (byte : UInt8) : Grammar SigType :=
  match SigType.primitive? byte with
  | some primitive => .pure primitive
  | none =>
      if byte = ElementType.ptr then modsThen limit fun mods => (T seen).map (.ptr mods)
      else if byte = ElementType.byRef then (T seen).map .byRef
      else if byte = ElementType.valueType then tokenGrammar.map .valueType
      else if byte = ElementType.class_ then tokenGrammar.map .class_
      else if byte = ElementType.var then cu32Grammar.map .var
      else if byte = ElementType.mvar then cu32Grammar.map .mvar
      else if byte = ElementType.szArray then
        modsThen limit fun mods => (T seen).map (.szArray mods)
      else if byte = ElementType.array then
        (T seen).bind fun element => arrayShapeGrammar.map (.array element)
      else if byte = ElementType.genericInst then
        (byteGrammar.filterMap genericKindOf?).bind fun isValueType =>
          tokenGrammar.bind fun definition =>
            (countedGrammar (T seen)).map (.genericInst isValueType definition)
      else if byte = ElementType.fnPtr then (M seen).map .fnPtr
      else if byte = ElementType.pinned then ((T true).map .pinned).guard (seen = false)
      else .none

theorem setPinned_back (n : Nat) {p : Parser} (h : p.pinnedSeen = false) :
    setPinned false (Cursor.advance n (setPinned true p)) = Cursor.advance n p := by
  cases p
  cases h
  rfl

theorem accepts_pinnedType (start : Nat)
    (hT : Accepts (At limit depth true) ty (T true)) :
    Accepts (At limit depth seen) (pinnedType ty start)
      (((T true).map .pinned).guard (seen = false)) := by
  refine Accepts.get_bind ?_
  rintro p ⟨_, _, hseen⟩
  rw [hseen]
  -- a second `PINNED` is refused; the first one reads its type with the flag set
  cases seen with
  | true =>
      refine (Accepts.throw _).congr fun t bs ms => ?_
      constructor
      · intro h
        exact h.elim
      · intro h
        cases h.1
  | false =>
      have hinner : Accepts (At limit depth false)
          (modify (setPinned true) >>= fun _ => resetting (setPinned false) ty) (T true) := by
        refine accepts_changed (f := setPinned true) (g := setPinned false) ?_ (fun _ => rfl) ?_
          (fun _ => rfl) ?_ hT
        · rintro q ⟨hlimit, hdepth, _⟩
          exact ⟨hlimit, hdepth, rfl⟩
        · rintro n q ⟨_, _, hq⟩
          exact setPinned_back n hq
        · intro q a q' _
          exact resetting_ok_iff (p := setPinned true q)
      refine (hinner.map SigType.pinned).congr fun t bs ms => ?_
      constructor
      · intro h
        exact ⟨rfl, h⟩
      · intro h
        exact h.2

theorem accepts_typeBody (hT : ∀ seen, Accepts (At limit depth seen) ty (T seen))
    (hM : ∀ seen, Accepts (At limit depth seen) method (M seen))
    (hpos : ∀ seen, (T seen).Nonempty) (start : Nat) (byte : UInt8) :
    Accepts (At limit depth seen) (typeBody ty method start byte)
      (bodyGrammar limit T M seen byte) := by
  have hP := stable_at limit depth seen
  unfold typeBody bodyGrammar
  cases SigType.primitive? byte with
  | some primitive => exact Accepts.pure primitive
  | none =>
      -- one branch of the chain after another
      refine Accepts.ite (fun _ => ?_) fun _ => ?_
      · exact accepts_modsThen (fun mods => (hT seen).map _) fun mods => (hpos seen).map _
      refine Accepts.ite (fun _ => (hT seen).map _) fun _ => ?_
      refine Accepts.ite (fun _ => accepts_typeToken.map _) fun _ => ?_
      refine Accepts.ite (fun _ => accepts_typeToken.map _) fun _ => ?_
      refine Accepts.ite (fun _ => accepts_cu32.map _) fun _ => ?_
      refine Accepts.ite (fun _ => accepts_cu32.map _) fun _ => ?_
      refine Accepts.ite (fun _ => ?_) fun _ => ?_
      · exact accepts_modsThen (fun mods => (hT seen).map _) fun mods => (hpos seen).map _
      refine Accepts.ite (fun _ => ?_) fun _ => ?_
      · exact Accepts.bind hP (hT seen) fun element => accepts_arrayShape.map _
      refine Accepts.ite (fun _ => ?_) fun _ => ?_
      · have hkind : Accepts (At limit depth seen) genericKind
            (byteGrammar.filterMap genericKindOf?) :=
          accepts_position_bind fun _ => accepts_u8.filterMap _ _
        refine Accepts.bind hP hkind fun isValueType => ?_
        refine Accepts.bind hP accepts_typeToken fun definition => ?_
        exact (accepts_counted hP (hT seen) (hpos seen)).map _
      refine Accepts.ite (fun _ => (hM seen).map _) fun _ => ?_
      refine Accepts.ite (fun _ => accepts_pinnedType start (hT true)) fun _ => ?_
      by_cases hinternal : byte = ElementType.internal
      · rw [if_pos hinternal]
        exact Accepts.throw _
      · rw [if_neg hinternal]
        exact Accepts.throw _

/-- An element type byte and what follows it. -/
def plainGrammar (limit : Nat) (T : Bool → Grammar SigType) (M : Bool → Grammar MethodSig)
    (seen : Bool) : Grammar SigType :=
  byteGrammar.bind (bodyGrammar limit T M seen)

/-- A type: modifiers wrap it when no constructor takes them. -/
def typeInnerGrammar (limit : Nat) (T : Bool → Grammar SigType) (M : Bool → Grammar MethodSig)
    (seen : Bool) : Grammar SigType :=
  modsThen limit fun leading =>
    if leading.isEmpty then plainGrammar limit T M seen else (T seen).map (.modified leading)

theorem typeInnerGrammar_nonempty (hpos : ∀ seen, (T seen).Nonempty) (seen : Bool) :
    (typeInnerGrammar limit T M seen).Nonempty := by
  refine Grammar.Nonempty.ahead fun leading => ?_
  by_cases h : leading.isEmpty
  · rw [if_pos h]
    exact byteGrammar_nonempty.bind_left _
  · rw [if_neg h]
    exact (hpos seen).map _

theorem accepts_typeInner (hT : ∀ seen, Accepts (At limit depth seen) ty (T seen))
    (hM : ∀ seen, Accepts (At limit depth seen) method (M seen))
    (hpos : ∀ seen, (T seen).Nonempty) :
    Accepts (At limit depth seen) (typeInner ty method) (typeInnerGrammar limit T M seen) := by
  refine accepts_modsThen (fun leading => ?_) fun leading => ?_
  · refine Accepts.ite (fun _ => ?_) fun _ => (hT seen).map _
    refine accepts_position_bind fun start => ?_
    exact Accepts.bind (stable_at limit depth seen) accepts_u8
      fun byte => accepts_typeBody hT hM hpos start byte
  · by_cases h : leading.isEmpty
    · rw [if_pos h]
      exact byteGrammar_nonempty.bind_left _
    · rw [if_neg h]
      exact (hpos seen).map _

/-! ## Parameters -/

/-- `code` or nothing, and then a spelling that does not start with `code`. -/
def takenThen (code : UInt8) (S : Bool → Grammar α) : Grammar α :=
  Grammar.ahead (TakenIf code) S

theorem settled_takenIf (code : UInt8) : Settled (TakenIf code) true := by
  rintro cs next next' (h | ⟨h, _⟩)
  · exact .inl h
  · cases h

theorem accepts_takenThen {code : UInt8} {f : Bool → Parse α} {S : Bool → Grammar α}
    (hf : ∀ taken, Accepts (At limit depth seen) (f taken) (S taken))
    (hS : (S false).Nonempty) :
    Accepts (At limit depth seen) (takeIf code >>= f) (takenThen code S) := by
  refine AcceptsAhead.bind (stable_at limit depth seen) (acceptsAhead_takeIf code) hf ?_
  intro taken
  cases taken with
  | false => exact .inl hS
  | true => exact .inr (settled_takenIf code)

def paramGrammar (limit : Nat) (T : Grammar SigType) : Grammar Param :=
  modsThen limit fun mods => takenThen ElementType.byRef fun byRef =>
    T.map fun type_ => ⟨mods, byRef, type_⟩

theorem paramGrammar_nonempty {T : Grammar SigType} (hpos : T.Nonempty) :
    (paramGrammar limit T).Nonempty :=
  Grammar.Nonempty.ahead fun _ => Grammar.Nonempty.ahead fun _ => hpos.map _

theorem accepts_param {T : Grammar SigType} (hT : Accepts (At limit depth seen) ty T)
    (hpos : T.Nonempty) : Accepts (At limit depth seen) (param ty) (paramGrammar limit T) :=
  accepts_modsThen (fun _ => accepts_takenThen (fun _ => hT.map _) (hpos.map _))
    fun _ => Grammar.Nonempty.ahead fun _ => hpos.map _

/-- A local that is not the bare `TYPEDBYREF`: modifiers may stand on both sides of
`PINNED`. -/
def plainLocalGrammar (limit : Nat) (T : Grammar SigType) : Grammar LocalVar :=
  modsThen limit fun mods => takenThen ElementType.pinned fun pinned =>
    Grammar.ahead (if pinned then ModsAhead limit else fun more bs _ => more = [] ∧ bs = [])
      fun more => takenThen ElementType.byRef fun byRef =>
        T.bind fun type_ => (Grammar.pure ⟨mods ++ more, pinned, byRef, type_⟩).guard
          (type_.isPinned = false)

def localGrammar (limit : Nat) (T : Grammar SigType) : Grammar LocalVar :=
  takenThen ElementType.typedByRef fun bare =>
    if bare then .pure ⟨[], false, false, .typedByRef⟩ else plainLocalGrammar limit T

theorem plainLocalGrammar_nonempty {T : Grammar SigType} (hpos : T.Nonempty) :
    (plainLocalGrammar limit T).Nonempty :=
  Grammar.Nonempty.ahead fun _ => Grammar.Nonempty.ahead fun _ => Grammar.Nonempty.ahead fun _ =>
    Grammar.Nonempty.ahead fun _ => hpos.bind_left _

theorem localGrammar_nonempty {T : Grammar SigType} (hpos : T.Nonempty) :
    (localGrammar limit T).Nonempty := by
  rintro l bs ms ⟨bare, cs, ds, hbare, hds, rfl⟩
  rw [List.length_append]
  cases bare with
  | true =>
      rcases hbare with ⟨_, rfl⟩ | ⟨h, _⟩
      · exact Nat.lt_of_lt_of_le Nat.one_pos (Nat.le_add_right _ _)
      · cases h
  | false =>
      have h := plainLocalGrammar_nonempty hpos l ds ms hds
      omega

theorem accepts_plainLocal {T : Grammar SigType} (hT : Accepts (At limit depth seen) ty T)
    (hpos : T.Nonempty) :
    Accepts (At limit depth seen) (plainLocal ty) (plainLocalGrammar limit T) := by
  have hP := stable_at limit depth seen
  refine accepts_modsThen (fun mods => ?_) fun mods =>
    Grammar.Nonempty.ahead fun _ => Grammar.Nonempty.ahead fun _ =>
      Grammar.Nonempty.ahead fun _ => hpos.bind_left _
  refine accepts_takenThen (fun pinned => ?_)
    (Grammar.Nonempty.ahead fun _ => Grammar.Nonempty.ahead fun _ => hpos.bind_left _)
  refine AcceptsAhead.bind hP
    (AcceptsAhead.ite (c := pinned = true) (acceptsAhead_customMods limit depth seen)
      (AcceptsAhead.pure [])) (fun more => ?_)
    fun more => .inl (Grammar.Nonempty.ahead fun _ => hpos.bind_left _)
  refine accepts_takenThen (fun byRef => ?_) (hpos.bind_left _)
  refine Accepts.bind hP hT fun _ => ?_
  exact Accepts.get_bind fun p _ => Accepts.check fun _ => Accepts.pure _

theorem accepts_localVar {T : Grammar SigType} (hT : Accepts (At limit depth seen) ty T)
    (hpos : T.Nonempty) :
    Accepts (At limit depth seen) (localVar ty) (localGrammar limit T) :=
  accepts_takenThen
    (fun _ => Accepts.ite (fun _ => Accepts.pure _) fun _ => accepts_plainLocal hT hpos)
    (plainLocalGrammar_nonempty hpos)

/-! ## Method signatures -/

def headerGrammar : Grammar MethodHeader :=
  byteGrammar.bind fun byte =>
    (if byte &&& CallingConvention.generic ≠ 0 then cu32Grammar else .pure 0).filterMap
      (methodHeaderOf? byte)

theorem accepts_methodHeader (start : Nat) :
    Accepts (At limit depth seen) (methodHeader start) headerGrammar :=
  Accepts.bind (stable_at limit depth seen) accepts_u8 fun byte =>
    (Accepts.ite (c := byte &&& CallingConvention.generic ≠ 0) (fun _ => accepts_cu32)
      fun _ => Accepts.pure 0).filterMap _ _

/-- `n` parameters, before and after a sentinel. -/
def methodParamsGrammar (R : Grammar Param) : Nat → Bool → Grammar (List Param × List Param)
  | 0, _ => .pure ([], [])
  | n + 1, pastSentinel =>
      Grammar.ahead (SentinelAhead pastSentinel) fun past => R.bind fun first =>
        (methodParamsGrammar R n past).map fun others =>
          if past then (others.1, first :: others.2) else (first :: others.1, others.2)

theorem methodParamsGrammar_length {R : Grammar Param} (hpos : R.Nonempty) :
    ∀ {n : Nat} {past : Bool} {lists : List Param × List Param} {bs : List UInt8}
      {ms : List Mark}, methodParamsGrammar R n past lists bs ms → n ≤ bs.length
  | 0, _, _, _, _, _ => Nat.zero_le _
  | n + 1, _, _, _, _, ⟨_, _, _, _, ⟨first, cs, ds, ks, _, hfirst, ⟨_, _, hothers⟩, rfl, _⟩,
      rfl⟩ => by
      have hcs := hpos first cs ks hfirst
      have hds := methodParamsGrammar_length hpos hothers
      simp only [List.length_append]
      omega

theorem accepts_methodParams {item : Parse Param} {R : Grammar Param}
    (hitem : Accepts (At limit depth seen) item R) (hpos : R.Nonempty) :
    ∀ n past, Accepts (At limit depth seen) (methodParams item n past)
      (methodParamsGrammar R n past)
  | 0, _ => Accepts.pure _
  | n + 1, pastSentinel => by
      have hP := stable_at limit depth seen
      refine AcceptsAhead.bind hP (acceptsAhead_stepSentinel pastSentinel) (fun past => ?_)
        fun past => .inl (hpos.bind_left _)
      refine Accepts.bind hP hitem fun first => ?_
      exact (accepts_methodParams hitem hpos n past).map _

/-- The parameter count stands in front of the return type. -/
def methodPartsGrammar (R : Grammar Param) : Grammar MethodSig :=
  headerGrammar.bind fun header => cu32Grammar.bind fun count => R.bind fun returnType =>
    (methodParamsGrammar R count false).map fun lists =>
      { raw := []
        callingConvention := header.callingConvention
        hasThis := header.hasThis
        explicitThis := header.explicitThis
        returnType
        params := lists.1
        varargParams := lists.2 }

theorem accepts_methodParts {item : Parse Param} {R : Grammar Param}
    (hitem : Accepts (At limit depth seen) item R) (hpos : R.Nonempty) (start : Nat) :
    Accepts (At limit depth seen) (methodParts item start) (methodPartsGrammar R) := by
  have hP := stable_at limit depth seen
  refine Accepts.bind hP (accepts_methodHeader start) fun header => ?_
  refine accepts_boundedCount_bind hP (fun count => ?_) ?_
  · refine Accepts.bind hP hitem fun returnType => ?_
    exact (accepts_methodParams hitem hpos count false).map _
  · rintro count m bs ms ⟨_, cs, ds, _, _, _, ⟨lists, _, hlists⟩, rfl, _⟩
    have hlen := methodParamsGrammar_length hpos hlists
    rw [List.length_append]
    omega

/-- A method signature keeps its own bytes. -/
def methodInnerGrammar (R : Grammar Param) : Grammar MethodSig :=
  (methodPartsGrammar R).sourced fun raw m => { m with raw }

theorem methodPartsGrammar_nonempty (R : Grammar Param) : (methodPartsGrammar R).Nonempty :=
  (byteGrammar_nonempty.bind_left _).bind_left _

theorem since_run {p : Parser} {bs tl : List UInt8} (hrest : p.rest = bs ++ tl)
    (hpos : 0 < bs.length) :
    (since p.pos).run (Cursor.advance bs.length p) = .ok bs (Cursor.advance bs.length p) := by
  have hlen : p.data.length - p.pos = bs.length + tl.length := by
    rw [← List.length_append, ← hrest]
    exact (rest_length p).symm
  have hin : p.pos ≤ p.pos + bs.length ∧ p.pos + bs.length ≤ p.data.length := by omega
  have htake : (p.data.drop p.pos).take (p.pos + bs.length - p.pos) = bs := by
    rw [show p.data.drop p.pos = bs ++ tl from hrest, Nat.add_sub_cancel_left, List.take_left]
  show (since p.pos).run (p.advance bs.length) = _
  rw [since, EStateM.run_bind, EStateM.run_get]
  simp only [advance, if_pos hin, htake]
  rfl

theorem accepts_sourced {body : Nat → Parse α} {R : Grammar α} {f : List UInt8 → α → β}
    (h : ∀ start, Accepts (At limit depth seen) (body start) R) (hpos : R.Nonempty) :
    Accepts (At limit depth seen)
      (position >>= fun start => body start >>= fun a => since start >>= fun raw =>
        pure (f raw a)) (R.sourced f) := by
  have hrun : ∀ {p a bs ms tl}, R a bs ms → p.rest = bs ++ tl →
      (since p.pos >>= fun raw => pure (f raw a) : Parse β).run (Cursor.advance bs.length p) =
        .ok (f bs a) (Cursor.advance bs.length p) := by
    intro p a bs ms tl hR hrest
    rw [run_bind_of_ok (since_run hrest (hpos a bs ms hR))]
    rfl
  have hstep : ∀ p, (position >>= fun start => body start >>= fun a => since start >>= fun raw =>
      pure (f raw a) : Parse β).run p =
      (body p.pos >>= fun a => since p.pos >>= fun raw => pure (f raw a)).run p := fun _ => rfl
  refine ⟨?_, ?_, ?_⟩
  · intro p b p' hp hb
    rw [hstep] at hb
    obtain ⟨a, q, hbody, hsince⟩ := run_bind_ok_iff.mp hb
    obtain ⟨bs, ms, hrest, rfl, hR, hms⟩ := (h p.pos).sound p a q hp hbody
    rw [hrun hR hrest] at hsince
    cases hsince
    exact ⟨bs, ms, hrest, rfl, ⟨a, rfl, hR⟩, hms⟩
  · rintro p b bs ms tl hp ⟨a, rfl, hR⟩ hrest hfits
    rw [hstep, run_bind_of_ok ((h p.pos).complete p a bs ms tl hp hR hrest hfits),
      hrun hR hrest]
  · rintro p b bs ms tl hp ⟨a, rfl, hR⟩ hrest hfits b' p' hb
    rw [hstep] at hb
    obtain ⟨a', q, hbody, _⟩ := run_bind_ok_iff.mp hb
    exact (h p.pos).refuses p a bs ms tl hp hR hrest hfits a' q hbody

theorem accepts_methodSigInner {item : Parse Param} {R : Grammar Param}
    (hitem : Accepts (At limit depth seen) item R) (hpos : R.Nonempty) :
    Accepts (At limit depth seen) (methodSigInner item) (methodInnerGrammar R) :=
  accepts_sourced (fun start => accepts_methodParts hitem hpos start)
    (methodPartsGrammar_nonempty R)

/-! ## The recursion -/

mutual

/-- Types that nest at most `n` deep. -/
def typeGrammar (limit : Nat) : Nat → Bool → Grammar SigType
  | 0, _ => .none
  | n + 1, seen => typeInnerGrammar limit (typeGrammar limit n) (methodGrammar limit n) seen

/-- Method signatures that nest at most `n` deep. -/
def methodGrammar (limit : Nat) : Nat → Bool → Grammar MethodSig
  | 0, _ => .none
  | n + 1, seen => methodInnerGrammar (paramGrammar limit (typeGrammar limit n seen))

end

theorem typeGrammar_nonempty (limit n : Nat) (seen : Bool) :
    (typeGrammar limit n seen).Nonempty := by
  induction n generalizing seen with
  | zero =>
      rw [typeGrammar]
      exact Grammar.Nonempty.none
  | succ n ih =>
      rw [typeGrammar]
      exact typeInnerGrammar_nonempty ih seen

/-- With `n` levels left, the parser accepts what nests at most `n` deep. -/
theorem accepts_type_methodSig (limit : Nat) : ∀ n depth, n + depth = limit → ∀ seen,
    Accepts (At limit depth seen) (type_ n) (typeGrammar limit n seen) ∧
      Accepts (At limit depth seen) (methodSig n) (methodGrammar limit n seen) := by
  intro n
  induction n with
  | zero =>
      intro depth hdepth seen
      rw [type_, methodSig, typeGrammar, methodGrammar]
      exact ⟨accepts_enter_bind (by omega), accepts_enter_bind (by omega)⟩
  | succ n ih =>
      intro depth hdepth seen
      have hinner := ih (depth + 1) (by omega)
      have hpos := typeGrammar_nonempty limit n
      rw [type_, methodSig, typeGrammar, methodGrammar]
      refine ⟨accepts_nested (by omega) ?_, accepts_nested (by omega) ?_⟩
      · exact accepts_typeInner (fun seen => (hinner seen).1) (fun seen => (hinner seen).2) hpos
      · exact accepts_methodSigInner (accepts_param (hinner seen).1 (hpos seen))
          (paramGrammar_nonempty (hpos seen))

end Cildec.Parser
