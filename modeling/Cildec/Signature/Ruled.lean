import Cildec.Lib.Narrow
import Cildec.Signature.Locality

/-!
# Signature parsers that enforce rules

Where the parsers of the source let a `SENTINEL`, a `VOID` or a second `PINNED` through, a
ruled parser looks at the byte and fails. It is the parser of the source in everything else,
so what it returns is what that one returns within the rules.

* `Rules.selects_type_methodSig`: this for the recursive methods, by induction on the depth
  that is left;
* `Rules.methodSig_iff` and the five lemmas after it: an accepted blob keeps to the rules
  exactly when the ruled parser accepts it too.
-/

namespace Cildec

open Wire Cildec.Parser

/-! ## The rules -/

/-- What may stand where. -/
structure Rules where
  /-- Conventions whose parameters a `SENTINEL` may split. -/
  sentinel : CallConv → Bool
  /-- Whether a return type, or a parameter, by reference or not, may be `VOID`. -/
  void : (isReturn byRef : Bool) → Bool
  /-- Whether the type of a pinned local may hold a `PINNED`. -/
  repinned : Bool

mutual

/-- What every `PINNED` inside a type applies to, at any depth. -/
def SigType.pinnings : SigType → List SigType
  | .modified _ inner => inner.pinnings
  | .ptr _ inner => inner.pinnings
  | .byRef inner => inner.pinnings
  | .array element _ => element.pinnings
  | .szArray _ element => element.pinnings
  | .genericInst _ _ args => SigType.pinningsAll args
  | .fnPtr method => method.pinnings
  | .pinned inner => inner :: inner.pinnings
  | _ => []

def SigType.pinningsAll : List SigType → List SigType
  | [] => []
  | ty :: tys => ty.pinnings ++ SigType.pinningsAll tys

def Param.pinnings : Param → List SigType
  | ⟨_, _, ty⟩ => ty.pinnings

def Param.pinningsAll : List Param → List SigType
  | [] => []
  | param :: params => param.pinnings ++ Param.pinningsAll params

def MethodSig.pinnings : MethodSig → List SigType
  | ⟨_, _, _, _, returnType, params, varargParams⟩ =>
      returnType.pinnings ++ (Param.pinningsAll params ++ Param.pinningsAll varargParams)

end

theorem SigType.pinningsAll_eq (tys : List SigType) :
    SigType.pinningsAll tys = tys.flatMap SigType.pinnings := by
  induction tys with
  | nil => rfl
  | cons ty tys ih => rw [SigType.pinningsAll, ih, List.flatMap_cons]

theorem Param.pinningsAll_eq (params : List Param) :
    Param.pinningsAll params = params.flatMap Param.pinnings := by
  induction params with
  | nil => rfl
  | cons param params ih => rw [Param.pinningsAll, ih, List.flatMap_cons]

theorem Param.pinnings_type (param : Param) : param.pinnings = param.type_.pinnings := by
  cases param
  rfl

theorem MethodSig.pinnings_eq (m : MethodSig) : m.pinnings =
    m.returnType.pinnings ++ (m.params.flatMap Param.pinnings ++
      m.varargParams.flatMap Param.pinnings) := by
  cases m
  rw [MethodSig.pinnings, Param.pinningsAll_eq, Param.pinningsAll_eq]

theorem SigType.pinnings_primitive {byte : UInt8} {ty : SigType}
    (h : SigType.primitive? byte = some ty) : ty.pinnings = [] := by
  unfold SigType.primitive? at h
  split at h <;> first | (cases h; rfl) | cases h

namespace Rules

/-! ## The ruled parsers -/

variable (rules : Rules)

/-- A `VOID` that comes next has to be allowed. -/
def checkVoid (allowed : Bool) : Parse Unit := do
  let p ← get
  check (p.rest.head? = some ElementType.void → allowed = true) (p.err .malformed)

def param (isReturn : Bool) (type_ : Parse SigType) : Parse Param := do
  let mods ← customMods
  let byRef ← takeIf ElementType.byRef
  checkVoid (rules.void isReturn byRef)
  let ty ← type_
  return ⟨mods, byRef, ty⟩

/-- A sentinel that is stepped over has to be admitted. -/
def stepSentinel (admitted pastSentinel : Bool) : Parse Bool := do
  let past ← Parser.stepSentinel pastSentinel
  let p ← get
  check (past = true → admitted = true) (p.err .malformed)
  return past

def methodParams (admitted : Bool) (param : Parse Param) :
    Nat → Bool → Parse (List Param × List Param)
  | 0, _ => return ([], [])
  | n + 1, pastSentinel => do
      let past ← stepSentinel admitted pastSentinel
      let first ← param
      let others ← methodParams admitted param n past
      return if past then (others.1, first :: others.2) else (first :: others.1, others.2)

def methodParts (type_ : Parse SigType) (start : Nat) : Parse MethodSig := do
  let header ← methodHeader start
  let count ← boundedCount
  let returnType ← rules.param true type_
  let lists ← methodParams (rules.sentinel header.callingConvention) (rules.param false type_)
    count false
  return {
    raw := []
    callingConvention := header.callingConvention
    hasThis := header.hasThis
    explicitThis := header.explicitThis
    returnType
    params := lists.1
    varargParams := lists.2 }

def methodSigInner (type_ : Parse SigType) : Parse MethodSig := do
  let start ← position
  let method ← rules.methodParts type_ start
  let raw ← since start
  return { method with raw }

/-- Without `pins`, every `PINNED` is refused. -/
def plainType (pins : Bool) (type_ : Parse SigType) (methodSig : Parse MethodSig) :
    Parse SigType := do
  let start ← position
  let byte ← u8
  if byte = ElementType.pinned ∧ pins = false then
    throw (errAt .malformed start)
  else
    typeBody type_ methodSig start byte

def typeInner (pins : Bool) (type_ : Parse SigType) (methodSig : Parse MethodSig) :
    Parse SigType := do
  let leading ← customMods
  if leading.isEmpty then
    plainType pins type_ methodSig
  else
    let inner ← type_
    return .modified leading inner

mutual

def type_ (pins : Bool) : Nat → Parse SigType
  | 0 => Parser.type_ 0
  | fuel + 1 => nested (typeInner pins (type_ pins fuel) (methodSig pins fuel))

def methodSig (pins : Bool) : Nat → Parse MethodSig
  | 0 => Parser.methodSig 0
  | fuel + 1 => nested (rules.methodSigInner (type_ pins fuel))

end

/-- The type of a pinned local is read without pins, unless the rules allow them. -/
def plainLocal (limit : Nat) : Parse LocalVar := do
  let mods ← customMods
  let pinned ← takeIf ElementType.pinned
  let more ← modsIf pinned
  let byRef ← takeIf ElementType.byRef
  let ty ← rules.type_ (!pinned || rules.repinned) limit
  let p ← get
  check (ty.isPinned = false) (p.err .malformed)
  return ⟨mods ++ more, pinned, byRef, ty⟩

def localVar (limit : Nat) : Parse LocalVar := do
  if ← takeIf ElementType.typedByRef then
    return ⟨[], false, false, .typedByRef⟩
  else
    rules.plainLocal limit

def fieldParser (limit : Nat) (blob : List UInt8) : Parse FieldSig := do
  let _ ← expectConvention CallingConvention.field
  let mods ← customMods
  let ty ← rules.type_ true limit
  return ⟨blob, mods, ty⟩

def localVarParser (limit : Nat) (blob : List UInt8) : Parse LocalVarSig := do
  let _ ← expectConvention CallingConvention.localSig
  let locals ← counted (rules.localVar limit)
  return ⟨blob, locals⟩

def propertyParser (limit : Nat) (blob : List UInt8) : Parse PropertySig := do
  let byte ← PropertySig.header
  let count ← boundedCount
  let returnType ← rules.param true (rules.type_ true limit)
  let params ← repeatM (rules.param false (rules.type_ true limit)) count
  return ⟨blob, byte &&& CallingConvention.hasThis ≠ 0, returnType, params⟩

def methodSpecParser (limit : Nat) (blob : List UInt8) : Parse MethodSpecSig := do
  let _ ← expectConvention CallingConvention.genericInst
  let args ← counted (rules.type_ true limit)
  return ⟨blob, args⟩

def typeSpecParser (limit : Nat) (blob : List UInt8) : Parse TypeSpecSig := do
  let ty ← rules.type_ true limit
  return ⟨blob, ty⟩

/-- The parser accepts the blob. -/
def Accepted {α : Type} (parser : Parse α) (blob : List UInt8) (options : SignatureOptions) :
    Prop :=
  ∃ a, finish (parser.run (Parser.new blob options)) = .ok a

/-! ## What keeps to the rules -/

section Obeyed

variable (rules : Rules)

/-- The type is `VOID` only where the rules allow one. -/
def VoidOk (isReturn : Bool) (param : Param) : Prop :=
  param.type_ = .void → rules.void isReturn param.byRef = true

/-- A method signature keeps to the rules, whatever those inside it do. -/
structure Obeyed (m : MethodSig) : Prop where
  sentinel : m.varargParams ≠ [] → rules.sentinel m.callingConvention = true
  returnType : rules.VoidOk true m.returnType
  params : ∀ param ∈ m.params, rules.VoidOk false param
  varargParams : ∀ param ∈ m.varargParams, rules.VoidOk false param

/-- The method signatures inside a type keep to the rules, and without pins there is no
`PINNED`. -/
def Types (pins : Bool) (ty : SigType) : Prop :=
  (∀ m ∈ ty.methods, rules.Obeyed m) ∧ (pins = false → ty.pinnings = [])

def Params (pins isReturn : Bool) (param : Param) : Prop :=
  rules.VoidOk isReturn param ∧ rules.Types pins param.type_

def Methods (pins : Bool) (m : MethodSig) : Prop :=
  (∀ m' ∈ m.methods, rules.Obeyed m') ∧ (pins = false → m.pinnings = [])

end Obeyed

variable {rules : Rules} {pins isReturn : Bool}

theorem types_primitive {byte : UInt8} {ty : SigType} (h : SigType.primitive? byte = some ty) :
    rules.Types pins ty := by
  refine ⟨?_, fun _ => SigType.pinnings_primitive h⟩
  rw [SigType.methods_primitive h]
  exact fun _ hmem => absurd hmem List.not_mem_nil

/-- A type without another one inside. -/
theorem types_leaf {ty : SigType} (hmethods : ty.methods = []) (hpinnings : ty.pinnings = []) :
    rules.Types pins ty := by
  refine ⟨?_, fun _ => hpinnings⟩
  rw [hmethods]
  exact fun _ hmem => absurd hmem List.not_mem_nil

theorem types_genericInst (isValueType : Bool) (definition : Token) (args : List SigType) :
    rules.Types pins (.genericInst isValueType definition args) ↔
      ∀ ty ∈ args, rules.Types pins ty := by
  show (∀ m ∈ SigType.methodsAll args, _) ∧ (_ → SigType.pinningsAll args = []) ↔ _
  rw [SigType.methodsAll_eq, SigType.pinningsAll_eq, List.forall_mem_flatMap,
    List.flatMap_eq_nil_iff]
  constructor
  · rintro ⟨hmethods, hpinnings⟩ ty hty
    exact ⟨hmethods ty hty, fun h => hpinnings h ty hty⟩
  · intro h
    exact ⟨fun ty hty => (h ty hty).1, fun hpins ty hty => (h ty hty).2 hpins⟩

/-- The method signatures and the pins of the parameters are those of their types. -/
theorem types_params (params : List Param) :
    ((∀ m ∈ params.flatMap Param.methods, rules.Obeyed m) ∧
        (pins = false → params.flatMap Param.pinnings = [])) ↔
      ∀ param ∈ params, rules.Types pins param.type_ := by
  simp only [List.forall_mem_flatMap, List.flatMap_eq_nil_iff, Param.methods_type,
    Param.pinnings_type]
  constructor
  · rintro ⟨hmethods, hpinnings⟩ param hmem
    exact ⟨hmethods param hmem, fun h => hpinnings h param hmem⟩
  · intro h
    exact ⟨fun param hmem => (h param hmem).1, fun hpins param hmem => (h param hmem).2 hpins⟩

/-- A method signature keeps to the rules, with all that is inside, exactly when its
convention admits its sentinel and its return type and its parameters keep to the rules. -/
theorem methods_iff (m : MethodSig) :
    rules.Methods pins m ↔
      (m.varargParams ≠ [] → rules.sentinel m.callingConvention = true) ∧
        rules.Params pins true m.returnType ∧
        (∀ param ∈ m.params, rules.Params pins false param) ∧
        ∀ param ∈ m.varargParams, rules.Params pins false param := by
  have hparams := @types_params rules pins m.params
  have hvarargs := @types_params rules pins m.varargParams
  unfold Methods
  rw [m.methods_eq, m.pinnings_eq, m.returnType.methods_type, m.returnType.pinnings_type]
  simp only [List.forall_mem_append, List.forall_mem_singleton, List.append_eq_nil_iff]
  constructor
  · rintro ⟨⟨hown, hret, hps, hvs⟩, hpins⟩
    refine ⟨hown.sentinel, ⟨hown.returnType, hret, fun h => (hpins h).1⟩, ?_, ?_⟩
    · intro param hmem
      exact ⟨hown.params param hmem, hparams.mp ⟨hps, fun h => (hpins h).2.1⟩ param hmem⟩
    · intro param hmem
      exact ⟨hown.varargParams param hmem,
        hvarargs.mp ⟨hvs, fun h => (hpins h).2.2⟩ param hmem⟩
  · rintro ⟨hsentinel, hret, hps, hvs⟩
    obtain ⟨hpsm, hpsp⟩ := hparams.mpr fun param hmem => (hps param hmem).2
    obtain ⟨hvsm, hvsp⟩ := hvarargs.mpr fun param hmem => (hvs param hmem).2
    refine ⟨⟨⟨hsentinel, hret.1, ?_, ?_⟩, hret.2.1, hpsm, hvsm⟩, ?_⟩
    · exact fun param hmem => (hps param hmem).1
    · exact fun param hmem => (hvs param hmem).1
    · exact fun h => ⟨hret.2.2 h, hpsp h, hvsp h⟩

/-- The bytes a method signature keeps do not matter. -/
theorem methods_raw (m : MethodSig) (raw : List UInt8) :
    rules.Methods pins { m with raw } ↔ rules.Methods pins m := by
  rw [methods_iff, methods_iff]

/-! ## The first byte of a type -/

/-- The modifiers that were read, and the byte they stopped at. -/
theorem customMods_head {p p' : Parser} {mods : List CustomMod}
    (h : customMods.run p = .ok mods p') :
    (mods = [] → p' = p ∧ p.rest.head?.bind modKind? = none) ∧
      (mods ≠ [] → ∃ required, p.rest.head?.bind modKind? = some required) := by
  have hstable : Stable fun _ : Parser => True := fun _ _ _ => trivial
  obtain ⟨bs, hrest, rfl, hmods, _, hnext⟩ := customModsFrom_sound hstable _ trivial h
  cases mods with
  | nil =>
      obtain rfl : bs = [] := hmods
      refine ⟨fun _ => ⟨Cursor.advance_zero p, ?_⟩, fun hne => absurd rfl hne⟩
      rw [hrest]
      exact hnext
  | cons mod mods =>
      obtain ⟨b, cs, ds, hkind, _, _, rfl⟩ := hmods
      refine ⟨nofun, fun _ => ⟨mod.required, ?_⟩⟩
      rw [hrest]
      exact hkind

theorem enter_rest {p p' : Parser} (h : enter.run p = .ok () p') : p'.rest = p.rest := by
  by_cases hdepth : p.depth < p.options.limit
  · rw [enter_run hdepth] at h
    cases h
    rfl
  · obtain ⟨e, q, herror⟩ := enter_run_error (Nat.not_lt.mp hdepth)
    rw [herror] at h
    cases h

/-- A type is read from a byte: a modifier wraps it, and any other byte is the element type
byte that `typeBody` looks at. -/
theorem type_ok_cases {n : Nat} {p p' : Parser} {ty : SigType}
    (h : (Parser.type_ n).run p = .ok ty p') :
    ∃ b tl, p.rest = b :: tl ∧
      ((∃ required mods inner, modKind? b = some required ∧ ty = .modified mods inner) ∨
        ∃ type_ methodSig start q q', (typeBody type_ methodSig start b).run q = .ok ty q') := by
  cases n with
  | zero =>
      rw [Parser.type_] at h
      obtain ⟨_, q, _, hthrow⟩ := run_bind_ok_iff.mp h
      cases hthrow
  | succ n =>
      rw [Parser.type_] at h
      obtain ⟨_, p1, henter, hnested⟩ := run_bind_ok_iff.mp h
      obtain ⟨r, hinner, _⟩ := resetting_ok_iff.mp hnested
      rw [← enter_rest henter]
      obtain ⟨leading, p2, hmods, hafter⟩ := run_bind_ok_iff.mp hinner
      obtain ⟨hnone, hsome⟩ := customMods_head hmods
      cases leading with
      | nil =>
          obtain ⟨rfl, _⟩ := hnone rfl
          have hplain : (Parser.plainType (Parser.type_ n) (Parser.methodSig n)).run p2 = .ok ty r :=
            hafter
          obtain ⟨start, q, hstart, hu8⟩ := run_bind_ok_iff.mp hplain
          cases hstart
          obtain ⟨byte, q, hbyte, hbody⟩ := run_bind_ok_iff.mp hu8
          cases hrest : p2.rest with
          | nil =>
              rw [u8_run_nil hrest] at hbyte
              cases hbyte
          | cons b tl =>
              rw [u8_run_cons hrest] at hbyte
              cases hbyte
              exact ⟨_, tl, rfl, .inr ⟨_, _, _, _, _, hbody⟩⟩
      | cons mod mods =>
          obtain ⟨inner, q, _, hpure⟩ := run_bind_ok_iff.mp hafter
          cases hpure
          obtain ⟨required, hkind⟩ := hsome (List.cons_ne_nil _ _)
          obtain ⟨b, tl, hrest, hb⟩ := head_of_modKind hkind
          exact ⟨b, tl, hrest, .inl ⟨required, _, _, hb, rfl⟩⟩

theorem primitive_void {byte : UInt8} {ty : SigType} (h : SigType.primitive? byte = some ty) :
    ty = .void ↔ byte = ElementType.void := by
  unfold SigType.primitive? at h
  split at h <;> cases h <;> simp [ElementType.void]

theorem typeBody_void (type_ : Parse SigType) (methodSig : Parse MethodSig) (start : Nat)
    (byte : UInt8) :
    Returns (typeBody type_ methodSig start byte) fun ty => ty = .void ↔ byte = ElementType.void := by
  unfold typeBody
  cases hprimitive : SigType.primitive? byte with
  | some primitive => exact Returns.pure (primitive_void hprimitive)
  | none =>
      have hne : byte ≠ ElementType.void := by
        rintro rfl
        cases hprimitive
      -- every other constructor
      have hother : ∀ {α : Type} {x : Parse α} {f : α → SigType}, (∀ a, f a ≠ .void) →
          Returns (x >>= fun a => pure (f a)) fun ty => ty = .void ↔ byte = ElementType.void :=
        fun h => Returns.map fun a => iff_of_false (h a) hne
      refine Returns.ite (fun _ => Returns.then fun mods => hother nofun) fun _ => ?_
      refine Returns.ite (fun _ => hother nofun) fun _ => ?_
      refine Returns.ite (fun _ => hother nofun) fun _ => ?_
      refine Returns.ite (fun _ => hother nofun) fun _ => ?_
      refine Returns.ite (fun _ => hother nofun) fun _ => ?_
      refine Returns.ite (fun _ => hother nofun) fun _ => ?_
      refine Returns.ite (fun _ => Returns.then fun mods => hother nofun) fun _ => ?_
      refine Returns.ite (fun _ => Returns.then fun element => hother nofun) fun _ => ?_
      refine Returns.ite (fun _ => Returns.then fun kind => Returns.then fun definition =>
        hother nofun) fun _ => ?_
      refine Returns.ite (fun _ => hother nofun) fun _ => ?_
      refine Returns.ite (fun _ => ?_) fun _ => ?_
      · refine Returns.then fun p => Returns.ite (fun _ => Returns.throw _ _) fun _ => ?_
        exact Returns.then fun _ => hother nofun
      exact Returns.ite (fun _ => Returns.throw _ _) fun _ => Returns.throw _ _

/-- With levels left or without, a type is `VOID` exactly when the next byte is. -/
theorem type_void {n : Nat} {p p' : Parser} {ty : SigType}
    (h : (Parser.type_ n).run p = .ok ty p') :
    ty = .void ↔ p.rest.head? = some ElementType.void := by
  obtain ⟨b, tl, hrest, hcases⟩ := type_ok_cases h
  rw [hrest, List.head?_cons, Option.some_inj]
  rcases hcases with ⟨required, mods, inner, hb, rfl⟩ | ⟨type_, methodSig, start, q, q', hbody⟩
  · refine iff_of_false nofun ?_
    rintro rfl
    cases hb
  · exact typeBody_void type_ methodSig start b q ty q' hbody

/-! ## What the ruled parsers select -/

section Selects

variable {ty ty' : Parse SigType} {m m' : Parse MethodSig}

theorem selects_resetting {α : Type} {Q : α → Prop} {x y : Parse α} (reset : Parser → Parser)
    (h : SelectsM Q x y) : SelectsM Q (resetting reset x) (resetting reset y) := by
  intro p a p'
  rw [resetting_ok_iff, resetting_ok_iff]
  constructor
  · rintro ⟨q, hx, rfl⟩
    obtain ⟨hy, hQ⟩ := (h p a q).mp hx
    exact ⟨⟨q, hy, rfl⟩, hQ⟩
  · rintro ⟨⟨q, hy, rfl⟩, hQ⟩
    exact ⟨q, (h p a q).mpr ⟨hy, hQ⟩, rfl⟩

theorem selects_nested {α : Type} {Q : α → Prop} {x y : Parse α} (h : SelectsM Q x y) :
    SelectsM Q (nested x) (nested y) :=
  SelectsM.seq _ fun _ => selects_resetting leave h

theorem selects_counted {α : Type} {Q : α → Prop} {x y : Parse α} (h : SelectsM Q x y) :
    SelectsM (fun as => ∀ a ∈ as, Q a) (counted x) (counted y) :=
  SelectsM.seq _ fun count => h.repeatM count

theorem selects_leaf {α : Type} {x : Parse α} {f : α → SigType}
    (hmethods : ∀ a, (f a).methods = []) (hpinnings : ∀ a, (f a).pinnings = []) :
    SelectsM (rules.Types pins) (x >>= fun a => pure (f a)) (x >>= fun a => pure (f a)) :=
  SelectsM.same (Returns.map fun a => types_leaf (hmethods a) (hpinnings a))

theorem selects_pinnedType (hT : SelectsM (rules.Types true) ty ty') (start : Nat) :
    SelectsM (rules.Types true) (pinnedType ty start) (pinnedType ty' start) := by
  refine SelectsM.seq _ fun p => SelectsM.ite (fun _ => SelectsM.same (Returns.throw _ _)) ?_
  intro _
  refine SelectsM.seq _ fun _ => (selects_resetting (setPinned false) hT).map fun inner => ?_
  exact and_congr_right fun _ => iff_of_true nofun nofun

theorem returns_pinnedType (start : Nat) :
    Returns (pinnedType ty start) fun t => ¬ rules.Types false t := by
  refine Returns.then fun p => Returns.ite (fun _ => Returns.throw _ _) fun _ => ?_
  exact Returns.then fun _ => Returns.map fun inner h => List.cons_ne_nil _ _ (h.2 rfl)

theorem selects_typeBody (hT : SelectsM (rules.Types pins) ty ty')
    (hM : SelectsM (rules.Methods pins) m m') (start : Nat) (byte : UInt8)
    (hbyte : ¬ (byte = ElementType.pinned ∧ pins = false)) :
    SelectsM (rules.Types pins) (typeBody ty m start byte) (typeBody ty' m' start byte) := by
  unfold typeBody
  cases hprimitive : SigType.primitive? byte with
  | some primitive => exact SelectsM.same (Returns.pure (types_primitive hprimitive))
  | none =>
      refine SelectsM.ite (fun _ => SelectsM.seq _ fun mods => hT.map fun _ => Iff.rfl) fun _ => ?_
      refine SelectsM.ite (fun _ => hT.map fun _ => Iff.rfl) fun _ => ?_
      -- a token or an index, with no type inside
      refine SelectsM.ite (fun _ => selects_leaf (fun _ => rfl) fun _ => rfl) fun _ => ?_
      refine SelectsM.ite (fun _ => selects_leaf (fun _ => rfl) fun _ => rfl) fun _ => ?_
      refine SelectsM.ite (fun _ => selects_leaf (fun _ => rfl) fun _ => rfl) fun _ => ?_
      refine SelectsM.ite (fun _ => selects_leaf (fun _ => rfl) fun _ => rfl) fun _ => ?_
      refine SelectsM.ite (fun _ => SelectsM.seq _ fun mods => hT.map fun _ => Iff.rfl) fun _ => ?_
      refine SelectsM.ite (fun _ => hT.bind ?_ ?_) fun _ => ?_
      · exact fun element => Returns.map fun shape h => h
      · exact fun element helement => SelectsM.same (Returns.map fun shape => helement)
      refine SelectsM.ite (fun _ => ?_) fun _ => ?_
      · refine SelectsM.seq _ fun isValueType => SelectsM.seq _ fun definition => ?_
        exact (selects_counted hT).map fun args => types_genericInst isValueType definition args
      refine SelectsM.ite (fun _ => hM.map fun _ => Iff.rfl) fun _ => ?_
      refine SelectsM.ite (fun hpinned => ?_) fun _ => SelectsM.same (Returns.ite
        (fun _ => Returns.throw _ _) fun _ => Returns.throw _ _)
      -- a `PINNED` is only read with pins
      cases pins with
      | false => exact absurd ⟨hpinned, rfl⟩ hbyte
      | true => exact selects_pinnedType hT start

theorem selects_plainType (hT : SelectsM (rules.Types pins) ty ty')
    (hM : SelectsM (rules.Methods pins) m m') :
    SelectsM (rules.Types pins) (plainType pins ty m) (Parser.plainType ty' m') := by
  refine SelectsM.seq _ fun start => SelectsM.seq _ fun byte => ?_
  by_cases hbyte : byte = ElementType.pinned ∧ pins = false
  · rw [if_pos hbyte]
    obtain ⟨rfl, rfl⟩ := hbyte
    have hpinned : Returns (pinnedType ty' start) fun t => ¬ rules.Types false t :=
      returns_pinnedType start
    exact SelectsM.throw _ hpinned
  · rw [if_neg hbyte]
    exact selects_typeBody hT hM start byte hbyte

theorem selects_typeInner (hT : SelectsM (rules.Types pins) ty ty')
    (hM : SelectsM (rules.Methods pins) m m') :
    SelectsM (rules.Types pins) (typeInner pins ty m) (Parser.typeInner ty' m') :=
  SelectsM.seq _ fun _ => SelectsM.ite (fun _ => selects_plainType hT hM)
    fun _ => hT.map fun _ => Iff.rfl

theorem checkVoid_ok_iff {allowed : Bool} {p p' : Parser} :
    (checkVoid allowed).run p = .ok () p' ↔
      (p.rest.head? = some ElementType.void → allowed = true) ∧ p' = p := by
  rw [checkVoid, EStateM.run_bind, EStateM.run_get]
  exact check_ok_iff

/-- The test of the byte in front of a type is one of the type. -/
theorem selects_param (hT : SelectsM (rules.Types pins) ty ty')
    (hvoid : ∀ {p t p'}, ty'.run p = .ok t p' →
      (t = .void ↔ p.rest.head? = some ElementType.void)) :
    SelectsM (rules.Params pins isReturn) (rules.param isReturn ty) (Parser.param ty') := by
  refine SelectsM.seq _ fun mods => SelectsM.seq _ fun byRef => ?_
  intro p param p'
  constructor
  · intro hrun
    obtain ⟨_, q, hcheck, htype⟩ := run_bind_ok_iff.mp hrun
    obtain ⟨hallowed, rfl⟩ := checkVoid_ok_iff.mp hcheck
    obtain ⟨t, q', ht, hpure⟩ := run_bind_ok_iff.mp htype
    cases hpure
    obtain ⟨ht', htypes⟩ := (hT _ t p').mp ht
    refine ⟨run_bind_ok_iff.mpr ⟨t, p', ht', rfl⟩, ?_, htypes⟩
    exact fun h => hallowed ((hvoid ht').mp h)
  · rintro ⟨hrun, hok, htypes⟩
    obtain ⟨t, q', ht', hpure⟩ := run_bind_ok_iff.mp hrun
    cases hpure
    have hcheck := checkVoid_ok_iff.mpr ⟨fun h => hok ((hvoid ht').mpr h), rfl⟩
    rw [run_bind_of_ok hcheck]
    exact run_bind_ok_iff.mpr ⟨t, p', (hT p t p').mpr ⟨ht', htypes⟩, rfl⟩

theorem selects_stepSentinel (admitted pastSentinel : Bool) :
    SelectsM (fun past => past = true → admitted = true) (stepSentinel admitted pastSentinel)
      (Parser.stepSentinel pastSentinel) := by
  intro p past p'
  constructor
  · intro hrun
    obtain ⟨past', q, hstep, hget⟩ := run_bind_ok_iff.mp hrun
    rw [EStateM.run_bind, EStateM.run_get] at hget
    obtain ⟨_, q', hcheck, hpure⟩ := run_bind_ok_iff.mp hget
    obtain ⟨hadmitted, rfl⟩ := check_ok_iff.mp hcheck
    cases hpure
    exact ⟨hstep, hadmitted⟩
  · rintro ⟨hstep, hadmitted⟩
    refine run_bind_ok_iff.mpr ⟨past, p', hstep, ?_⟩
    rw [EStateM.run_bind, EStateM.run_get]
    exact run_bind_ok_iff.mpr ⟨(), p', check_ok_iff.mpr ⟨hadmitted, rfl⟩, rfl⟩

/-- Parameters after a sentinel say that one was stepped over. -/
theorem selects_methodParams {Q : Param → Prop} {x y : Parse Param} (admitted : Bool)
    (h : SelectsM Q x y) : ∀ n past,
    SelectsM (fun lists => (lists.2 ≠ [] → admitted = true) ∧ (∀ param ∈ lists.1, Q param) ∧
        ∀ param ∈ lists.2, Q param)
      (methodParams admitted x n past) (Parser.methodParams y n past) := by
  intro n
  induction n with
  | zero =>
      intro past
      refine SelectsM.same (Returns.pure ⟨fun hne => absurd rfl hne, ?_, ?_⟩)
      · exact fun _ hmem => absurd hmem List.not_mem_nil
      · exact fun _ hmem => absurd hmem List.not_mem_nil
  | succ n ih =>
      intro pastSentinel
      refine (selects_stepSentinel admitted pastSentinel).bind ?_ ?_
      · intro past
        refine Returns.then fun first => Returns.map fun others hlists hpast => ?_
        subst hpast
        exact hlists.1 (List.cons_ne_nil _ _)
      · intro past hpast
        refine h.bind ?_ ?_
        · intro first
          refine Returns.map fun others hlists => ?_
          cases past with
          | false => exact hlists.2.1 first List.mem_cons_self
          | true => exact hlists.2.2 first List.mem_cons_self
        · intro first hfirst
          refine (ih past).map fun others => ?_
          cases past with
          | false =>
              simp only [Bool.false_eq_true, if_false, List.forall_mem_cons, hfirst, true_and]
          | true =>
              simp only [if_true, List.forall_mem_cons, hfirst, true_and, hpast rfl,
                implies_true]

theorem selects_methodSigInner (hT : SelectsM (rules.Types pins) ty ty')
    (hvoid : ∀ {p t p'}, ty'.run p = .ok t p' →
      (t = .void ↔ p.rest.head? = some ElementType.void)) :
    SelectsM (rules.Methods pins) (rules.methodSigInner ty) (Parser.methodSigInner (Parser.param ty')) := by
  refine SelectsM.seq _ fun start => ?_
  have hparts : SelectsM (rules.Methods pins) (rules.methodParts ty start)
      (Parser.methodParts (Parser.param ty') start) := by
    refine SelectsM.seq _ fun header => SelectsM.seq _ fun count => ?_
    have hreturns : SelectsM (rules.Params pins true) (rules.param true ty) (Parser.param ty') :=
      selects_param hT hvoid
    refine hreturns.bind ?_ ?_
    · exact fun returnType => Returns.map fun lists h => ((methods_iff _).mp h).2.1
    · intro returnType hreturn
      refine (selects_methodParams _ (selects_param hT hvoid) count false).map fun lists => ?_
      rw [methods_iff]
      exact and_congr_right fun _ => and_iff_right hreturn
  refine hparts.bind ?_ ?_
  · exact fun parts => Returns.map fun raw h => (methods_raw parts raw).mp h
  · exact fun parts h => SelectsM.same (Returns.map fun raw => (methods_raw parts raw).mpr h)

/-- The ruled parser returns what keeps to the rules, by induction on the levels left. -/
theorem selects_type_methodSig (n : Nat) :
    SelectsM (rules.Types pins) (rules.type_ pins n) (Parser.type_ n) ∧
      SelectsM (rules.Methods pins) (rules.methodSig pins n) (Parser.methodSig n) := by
  induction n with
  | zero =>
      rw [Rules.type_, Rules.methodSig, Parser.type_, Parser.methodSig]
      have hthrow : ∀ {α : Type} {Q : α → Prop}, SelectsM Q
          (enter >>= fun _ => get >>= fun p : Parser => throw (p.err .recursionLimit))
          (enter >>= fun _ => get >>= fun p : Parser => throw (p.err .recursionLimit)) :=
        SelectsM.same (Returns.then fun _ => Returns.then fun _ => Returns.throw _ _)
      exact ⟨hthrow, hthrow⟩
  | succ n ih =>
      rw [Rules.type_, Rules.methodSig, Parser.type_, Parser.methodSig]
      exact ⟨selects_nested (selects_typeInner ih.1 ih.2),
        selects_nested (selects_methodSigInner ih.1 type_void)⟩

theorem types_pins {ty : SigType} :
    rules.Types true ty ↔ ∀ m ∈ ty.methods, rules.Obeyed m :=
  and_iff_left nofun

theorem selects_type (n : Nat) : SelectsM (rules.Types pins) (rules.type_ pins n) (Parser.type_ n) :=
  (selects_type_methodSig n).1

theorem selects_params (n : Nat) :
    SelectsM (rules.Params true isReturn) (rules.param isReturn (rules.type_ true n))
      (Parser.param (Parser.type_ n)) :=
  selects_param (selects_type n) type_void

theorem selects_localVar (limit : Nat) :
    SelectsM (fun l => rules.Types (!l.pinned || rules.repinned) l.type_) (rules.localVar limit)
      (Parser.localVar (Parser.type_ limit)) := by
  refine SelectsM.seq _ fun bare => SelectsM.ite (fun _ => ?_) fun _ => ?_
  · exact SelectsM.same (Returns.pure (types_leaf rfl rfl))
  refine SelectsM.seq _ fun mods => SelectsM.seq _ fun pinned => ?_
  refine SelectsM.seq _ fun more => SelectsM.seq _ fun byRef => ?_
  refine (selects_type limit).bind ?_ ?_
  · exact fun ty => Returns.then fun p => Returns.map fun _ h => h
  · exact fun ty hty => SelectsM.same (Returns.then fun p => Returns.map fun _ => hty)

end Selects

/-! ## The six signatures -/

section Signatures

variable {blob : List UInt8} {options : SignatureOptions}

theorem accepted_iff {α : Type} {Q : α → Prop} {x y : Parse α} (h : SelectsM Q x y) {a : α}
    (hparse : finish (y.run (Parser.new blob options)) = .ok a) :
    Q a ↔ Accepted x blob options := by
  obtain ⟨p, hrun⟩ := Parser.finish_ok_iff.mp hparse
  rw [h.iff_of_ok hrun]
  exact exists_congr fun b => Parser.finish_ok_iff.symm

theorem methodSig_iff {m : MethodSig} (h : MethodSig.parseWith blob options = .ok m) :
    (∀ m' ∈ m.methods, rules.Obeyed m') ↔
      Accepted (rules.methodSig true options.limit) blob options := by
  rw [← accepted_iff (selects_type_methodSig options.limit).2 h]
  exact (and_iff_left nofun).symm

theorem field_iff {sig : FieldSig} (h : FieldSig.parseWith blob options = .ok sig) :
    (∀ m ∈ sig.methods, rules.Obeyed m) ↔
      Accepted (rules.fieldParser options.limit blob) blob options := by
  refine accepted_iff (Q := fun sig => ∀ m ∈ sig.methods, rules.Obeyed m) ?_ h
  refine SelectsM.seq _ fun _ => SelectsM.seq _ fun mods => ?_
  exact (selects_type options.limit).map fun ty => types_pins.symm

theorem localVar_iff {sig : LocalVarSig} (h : LocalVarSig.parseWith blob options = .ok sig) :
    ((∀ m ∈ sig.methods, rules.Obeyed m) ∧ (rules.repinned = false →
        ∀ l ∈ sig.locals, l.pinned = true → l.type_.pinnings = [])) ↔
      Accepted (rules.localVarParser options.limit blob) blob options := by
  have hselects : SelectsM
      (fun sig : LocalVarSig => ∀ l ∈ sig.locals, rules.Types (!l.pinned || rules.repinned) l.type_)
      (rules.localVarParser options.limit blob) (LocalVarSig.parser options.limit blob) := by
    refine SelectsM.seq _ fun _ => ?_
    exact (selects_counted (selects_localVar options.limit)).map fun locals => Iff.rfl
  rw [← accepted_iff hselects h, LocalVarSig.methods, List.forall_mem_flatMap]
  constructor
  · rintro ⟨hmethods, hpins⟩ l hl
    refine ⟨hmethods l hl, fun hfalse => ?_⟩
    rw [Bool.or_eq_false_iff, Bool.not_eq_false'] at hfalse
    exact hpins hfalse.2 l hl hfalse.1
  · intro hall
    refine ⟨fun l hl => (hall l hl).1, fun hrule l hl hpinned => (hall l hl).2 ?_⟩
    rw [hpinned, hrule]
    rfl

theorem property_iff {sig : PropertySig} (h : PropertySig.parseWith blob options = .ok sig) :
    ((∀ m ∈ sig.methods, rules.Obeyed m) ∧ rules.VoidOk true sig.returnType ∧
        ∀ param ∈ sig.params, rules.VoidOk false param) ↔
      Accepted (rules.propertyParser options.limit blob) blob options := by
  have hselects : SelectsM
      (fun sig : PropertySig => rules.Params true true sig.returnType ∧
        ∀ param ∈ sig.params, rules.Params true false param)
      (rules.propertyParser options.limit blob) (PropertySig.parser options.limit blob) := by
    refine SelectsM.seq _ fun byte => SelectsM.seq _ fun count => ?_
    refine (selects_params options.limit).bind ?_ ?_
    · exact fun returnType => Returns.map fun params h => h.1
    · intro returnType hreturn
      exact ((selects_params options.limit).repeatM count).map fun params =>
        and_iff_right hreturn
  rw [← accepted_iff hselects h, PropertySig.methods, Param.methodsAll_eq, List.forall_mem_append]
  have hparams := @types_params rules true sig.params
  have hpins : true = false → sig.params.flatMap Param.pinnings = [] := fun h => Bool.noConfusion h
  rw [and_iff_left hpins] at hparams
  rw [sig.returnType.methods_type, hparams]
  constructor
  · rintro ⟨⟨hret, hps⟩, hvoid, hvoids⟩
    exact ⟨⟨hvoid, types_pins.mpr hret⟩, fun param hmem => ⟨hvoids param hmem, hps param hmem⟩⟩
  · rintro ⟨⟨hvoid, hret⟩, hall⟩
    exact ⟨⟨types_pins.mp hret, fun param hmem => (hall param hmem).2⟩, hvoid,
      fun param hmem => (hall param hmem).1⟩

theorem methodSpec_iff {sig : MethodSpecSig} (h : MethodSpecSig.parseWith blob options = .ok sig) :
    (∀ m ∈ sig.methods, rules.Obeyed m) ↔
      Accepted (rules.methodSpecParser options.limit blob) blob options := by
  refine accepted_iff (Q := fun sig => ∀ m ∈ sig.methods, rules.Obeyed m) ?_ h
  refine SelectsM.seq _ fun _ => ?_
  have htype : SelectsM (rules.Types true) (rules.type_ true options.limit)
      (Parser.type_ options.limit) := selects_type options.limit
  refine (selects_counted htype).map fun args => ?_
  show (∀ m ∈ SigType.methodsAll args, _) ↔ _
  rw [SigType.methodsAll_eq, List.forall_mem_flatMap]
  exact forall₂_congr fun ty _ => types_pins.symm

theorem typeSpec_iff {sig : TypeSpecSig} (h : TypeSpecSig.parseWith blob options = .ok sig) :
    (∀ m ∈ sig.methods, rules.Obeyed m) ↔
      Accepted (rules.typeSpecParser options.limit blob) blob options := by
  refine accepted_iff (Q := fun sig => ∀ m ∈ sig.methods, rules.Obeyed m) ?_ h
  exact (selects_type options.limit).map fun ty => types_pins.symm

end Signatures

end Rules

end Cildec
