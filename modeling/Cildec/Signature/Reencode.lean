import Cildec.Signature.Depth
import Cildec.Signature.Reference
import Cildec.Signature.Shapes

/-!
# Writing a parsed signature again

A blob may spell a signature in more than one way: an integer may take more bytes than it needs,
and a header byte may set bits that nothing reads. What is parsed is written in one way, and read
back as it was, but for the bytes that a method signature keeps.

* `Reread`: what the grammars promise of a type, so that it is in normal form once it is rewritten;
* `typeGrammar_reread`: they keep it, by induction on the levels that are left;
* `signatures_reread`: the six parsers read back what they returned.
-/

namespace Cildec

open Wire Cildec.Parser

/-! ## Rewriting -/

mutual

/-- The type, with the bytes that its method signatures are written as. -/
def SigType.rewritten : SigType → SigType
  | .modified mods inner => .modified mods inner.rewritten
  | .ptr mods inner => .ptr mods inner.rewritten
  | .byRef inner => .byRef inner.rewritten
  | .array element shape => .array element.rewritten shape
  | .szArray mods element => .szArray mods element.rewritten
  | .genericInst isValueType definition args =>
      .genericInst isValueType definition (SigType.rewrittenAll args)
  | .fnPtr method => .fnPtr method.rewritten
  | .pinned inner => .pinned inner.rewritten
  | ty => ty

def SigType.rewrittenAll : List SigType → List SigType
  | [] => []
  | ty :: tys => ty.rewritten :: SigType.rewrittenAll tys

def Param.rewritten : Param → Param
  | ⟨mods, byRef, ty⟩ => ⟨mods, byRef, ty.rewritten⟩

def Param.rewrittenAll : List Param → List Param
  | [] => []
  | param :: params => param.rewritten :: Param.rewrittenAll params

def MethodSig.rewritten : MethodSig → MethodSig
  | ⟨raw, convention, hasThis, explicitThis, returnType, params, varargParams⟩ =>
      ⟨MethodSig.enc ⟨raw, convention, hasThis, explicitThis, returnType, params, varargParams⟩,
        convention, hasThis, explicitThis, returnType.rewritten, Param.rewrittenAll params,
        Param.rewrittenAll varargParams⟩

end

def FieldSig.rewritten (sig : FieldSig) : FieldSig := { sig with type_ := sig.type_.rewritten }

def LocalVar.rewritten (l : LocalVar) : LocalVar := { l with type_ := l.type_.rewritten }

def LocalVarSig.rewritten (sig : LocalVarSig) : LocalVarSig :=
  { sig with locals := sig.locals.map LocalVar.rewritten }

def PropertySig.rewritten (sig : PropertySig) : PropertySig :=
  { sig with
    returnType := sig.returnType.rewritten
    params := sig.params.map Param.rewritten }

def MethodSpecSig.rewritten (sig : MethodSpecSig) : MethodSpecSig :=
  { sig with args := sig.args.map SigType.rewritten }

def TypeSpecSig.rewritten (sig : TypeSpecSig) : TypeSpecSig :=
  { sig with type_ := sig.type_.rewritten }

theorem SigType.rewrittenAll_eq (tys : List SigType) :
    SigType.rewrittenAll tys = tys.map SigType.rewritten := by
  induction tys with
  | nil => rfl
  | cons ty tys ih => rw [rewrittenAll, ih, List.map_cons]

theorem Param.rewrittenAll_eq (params : List Param) :
    Param.rewrittenAll params = params.map Param.rewritten := by
  induction params with
  | nil => rfl
  | cons param params ih => rw [rewrittenAll, ih, List.map_cons]

@[simp] theorem SigType.isModified_rewritten (ty : SigType) :
    ty.rewritten.isModified = ty.isModified := by
  cases ty <;> rfl

@[simp] theorem SigType.isByRef_rewritten (ty : SigType) :
    ty.rewritten.isByRef = ty.isByRef := by
  cases ty <;> rfl

@[simp] theorem SigType.isPinned_rewritten (ty : SigType) :
    ty.rewritten.isPinned = ty.isPinned := by
  cases ty <;> rfl

/-- Rewriting changes neither what is written nor how deep it nests. -/
def SigType.Kept (ty : SigType) : Prop :=
  ty.rewritten.enc = ty.enc ∧ ty.rewritten.depth = ty.depth

def MethodSig.Kept (m : MethodSig) : Prop :=
  m.rewritten.enc = m.enc ∧ m.rewritten.depth = m.depth

theorem SigType.rewritten_primitive {byte : UInt8} {ty : SigType}
    (h : SigType.primitive? byte = some ty) : ty.rewritten = ty := by
  unfold SigType.primitive? at h
  split at h <;> first | (cases h; rfl) | cases h

theorem SigType.keptAll {tys : List SigType} (h : ∀ ty ∈ tys, ty.Kept) :
    SigType.encAll (SigType.rewrittenAll tys) = SigType.encAll tys ∧
      SigType.depthAll (SigType.rewrittenAll tys) = SigType.depthAll tys := by
  induction tys with
  | nil => exact ⟨rfl, rfl⟩
  | cons ty tys ih =>
      obtain ⟨⟨henc, hdepth⟩, htys⟩ := List.forall_mem_cons.mp h
      obtain ⟨hencs, hdepths⟩ := ih htys
      rw [rewrittenAll, encAll, encAll, depthAll, depthAll, henc, hencs, hdepth, hdepths]
      exact ⟨rfl, rfl⟩

theorem Param.kept {param : Param} (h : param.type_.Kept) :
    param.rewritten.enc = param.enc ∧ param.rewritten.depth = param.depth := by
  obtain ⟨mods, byRef, ty⟩ := param
  rw [rewritten, enc, enc, depth, depth, h.1, h.2]
  exact ⟨rfl, rfl⟩

theorem Param.keptAll {params : List Param} (h : ∀ param ∈ params, param.type_.Kept) :
    Param.encAll (Param.rewrittenAll params) = Param.encAll params ∧
      Param.depthAll (Param.rewrittenAll params) = Param.depthAll params := by
  induction params with
  | nil => exact ⟨rfl, rfl⟩
  | cons param params ih =>
      obtain ⟨hparam, hparams⟩ := List.forall_mem_cons.mp h
      obtain ⟨henc, hdepth⟩ := Param.kept hparam
      obtain ⟨hencs, hdepths⟩ := ih hparams
      rw [rewrittenAll, encAll, encAll, depthAll, depthAll, henc, hencs, hdepth, hdepths]
      exact ⟨rfl, rfl⟩

theorem Param.rewrittenAll_length (params : List Param) :
    (Param.rewrittenAll params).length = params.length := by
  rw [Param.rewrittenAll_eq, List.length_map]

/-- Each constructor keeps what its parts keep. -/
theorem kept_inherits (seen : Bool) :
    Inherits seen SigType.Kept SigType.Kept MethodSig.Kept SigType.Kept where
  primitive h := by
    rw [SigType.Kept, SigType.rewritten_primitive h]
    exact ⟨rfl, rfl⟩
  valueType _ := ⟨rfl, rfl⟩
  class_ _ := ⟨rfl, rfl⟩
  var _ := ⟨rfl, rfl⟩
  mvar _ := ⟨rfl, rfl⟩
  modified mods _ h :=
    ⟨congrArg (mods.flatMap CustomMod.enc ++ ·) h.1, congrArg (· + 1) h.2⟩
  ptr mods _ h := ⟨congrArg (fun bs => ElementType.ptr :: (mods.flatMap CustomMod.enc ++ bs)) h.1,
    congrArg (· + 1) h.2⟩
  byRef _ h := ⟨congrArg (ElementType.byRef :: ·) h.1, congrArg (· + 1) h.2⟩
  szArray mods _ h :=
    ⟨congrArg (fun bs => ElementType.szArray :: (mods.flatMap CustomMod.enc ++ bs)) h.1,
      congrArg (· + 1) h.2⟩
  array _ shape h := ⟨congrArg (fun bs => ElementType.array :: (bs ++ shape.enc)) h.1,
    congrArg (· + 1) h.2⟩
  genericInst isValueType definition args h := by
    obtain ⟨henc, hdepth⟩ := SigType.keptAll h
    rw [SigType.Kept, SigType.rewritten, SigType.enc, SigType.enc, SigType.depth, SigType.depth,
      henc, hdepth, SigType.rewrittenAll_eq, List.length_map]
    exact ⟨rfl, rfl⟩
  fnPtr _ h := ⟨congrArg (ElementType.fnPtr :: ·) h.1, congrArg (· + 1) h.2⟩
  pinned _ _ h := ⟨congrArg (ElementType.pinned :: ·) h.1, congrArg (· + 1) h.2⟩

theorem kept_method : MethodInherits SigType.Kept MethodSig.Kept := by
  rintro ⟨raw, convention, hasThis, explicitThis, returnType, params, varargParams⟩ hret hps hvs
  obtain ⟨henc, hdepth⟩ := Param.kept hret
  obtain ⟨hencs, hdepths⟩ := Param.keptAll hps
  obtain ⟨hencs', hdepths'⟩ := Param.keptAll hvs
  have hempty : (Param.rewrittenAll varargParams).isEmpty = varargParams.isEmpty := by
    cases varargParams <;> rfl
  rw [MethodSig.Kept, MethodSig.rewritten, MethodSig.enc, MethodSig.depth, MethodSig.depth,
    Param.rewrittenAll_length, Param.rewrittenAll_length, henc, hencs, hencs', hdepth, hdepths,
    hdepths', hempty]
  exact ⟨(MethodSig.enc.eq_1 ..).symm, rfl⟩

/-! ## Values -/

theorem tokenGrammar_isType : tokenGrammar.Each fun token _ => token.IsType := by
  rintro token bs ms ⟨v, hv, _⟩
  obtain ⟨table, htable, rfl⟩ := typeTokenOf?_eq_some_iff.mp hv
  rw [Token.IsType, Token.table_new]
  unfold typeTokenTable? at htable
  split at htable <;> cases htable
  · exact .inl rfl
  · exact .inr (.inl rfl)
  · exact .inr (.inr rfl)

theorem cu32Grammar_le : cu32Grammar.Each fun value _ => value ≤ Compressed.maxCompressedU32 :=
  fun _ _ _ h => h.1.le_max

theorem ci32Grammar_range :
    ci32Grammar.Each fun value _ => -0x10000000 ≤ value ∧ value < 0x10000000 := by
  rintro value bs ms ⟨⟨raw, hraw, rfl⟩, _⟩
  have hrange := Compressed.rotate_range hraw.lt_signBit
  have hsign : Compressed.signBit bs.length ≤ 0x10000000 := by
    rcases hraw.length_cases with h | h | h <;> rw [h] <;> decide
  omega

theorem countedGrammar_each {α : Type} {R : Grammar α} {Q : α → Prop} (hpos : R.Nonempty)
    (h : R.Each fun a _ => Q a) : (countedGrammar R).Each fun as _ =>
      as.length ≤ Compressed.maxCompressedU32 ∧ ∀ a ∈ as, Q a := by
  refine Grammar.Each.bind cu32Grammar_le fun count _ hcount as bs ms has => ?_
  obtain ⟨hlen, _⟩ := Grammar.repeated_length hpos has
  exact ⟨hlen ▸ hcount, Grammar.Each.repeated h count as bs ms has⟩

/-- The rank is at most the bytes that any shape is written with. -/
def ArrayShape.Roomy (shape : ArrayShape) : Prop :=
  shape.rank ≤ shape.sizes.length + shape.loBounds.length + 3

theorem arrayShapeGrammar_normal :
    arrayShapeGrammar.Each fun shape _ => shape.Roomy → shape.Normal := by
  refine Grammar.Each.bind cu32Grammar_le fun rank _ hrank => ?_
  have hlists : ((countedGrammar cu32Grammar).bind fun sizes => (countedGrammar ci32Grammar).map
      fun loBounds => (⟨rank, sizes, loBounds⟩ : ArrayShape)).Each
        fun shape _ => shape.Roomy → shape.Normal := by
    refine Grammar.Each.bind (countedGrammar_each cu32Grammar_nonempty cu32Grammar_le)
      fun sizes _ hsizes => ?_
    refine Grammar.Each.map (countedGrammar_each ci32Grammar_nonempty ci32Grammar_range) ?_
    intro loBounds _ hbounds hroom
    exact ⟨hrank, hsizes.1, hsizes.2, hbounds.1, hbounds.2, hroom⟩
  rintro shape bs ms ⟨ns, hshape, _⟩
  exact hlists shape bs ns hshape

theorem Parser.Mods.isType {mods : List CustomMod} {bs : List UInt8} (h : Mods mods bs) :
    ∀ mod ∈ mods, mod.typeToken.IsType := by
  induction mods generalizing bs with
  | nil => exact fun _ hmem => nomatch hmem
  | cons mod mods ih =>
      obtain ⟨b, cs, ds, _, ⟨v, hv, hpayload⟩, hmods, _⟩ := h
      have hmod := tokenGrammar_isType mod.typeToken cs [] ⟨v, hv, hpayload, rfl⟩
      exact List.forall_mem_cons.mpr ⟨hmod, ih hmods⟩

theorem Parser.ModsAhead.normal {limit : Nat} {mods : List CustomMod} {bs : List UInt8}
    {next : Option UInt8} (h : ModsAhead limit mods bs next) : NormalMods limit mods :=
  ⟨h.2.1, h.1.isType⟩

theorem headerGrammar_isMethod :
    headerGrammar.Each fun header _ => header.callingConvention.IsMethod := by
  refine Grammar.Each.bind (Grammar.Each.trivial _) fun byte _ _ => ?_
  have hcount : (if byte &&& CallingConvention.generic ≠ 0 then cu32Grammar else .pure 0).Each
      fun count _ => count ≤ Compressed.maxCompressedU32 :=
    Grammar.Each.ite cu32Grammar_le (Grammar.Each.pure (Nat.zero_le _))
  rintro header bs ms ⟨count, hheader, hspelled⟩
  have hle := hcount count bs ms hspelled
  obtain ⟨convention, hconvention, rfl⟩ := Option.map_eq_some_iff.mp hheader
  show convention.IsMethod
  unfold CallConv.ofByte? at hconvention
  split at hconvention
  · split at hconvention <;> cases hconvention
    · exact hle
    · trivial
  all_goals first | (cases hconvention; trivial) | cases hconvention

/-! ## Types -/

/-- The array shapes inside leave room for their ranks. -/
def Roomy (shapes : List ArrayShape) : Prop := ∀ shape ∈ shapes, shape.Roomy

theorem roomy_append {shapes shapes' : List ArrayShape} :
    Roomy (shapes ++ shapes') ↔ Roomy shapes ∧ Roomy shapes' := List.forall_mem_append

theorem roomy_flatMap {α : Type} {f : α → List ArrayShape} {as : List α} :
    Roomy (as.flatMap f) ↔ ∀ a ∈ as, Roomy (f a) := by
  show (∀ shape ∈ as.flatMap f, shape.Roomy) ↔ _
  exact List.forall_mem_flatMap

/-- What is promised of a type and of the bytes it was read from: rewritten it is in normal form,
and its first byte tells a modifier and a `BYREF`. -/
structure SigType.Reread (limit : Nat) (seen : Bool) (ty : SigType) (bs : List UInt8) : Prop where
  normal : Roomy ty.shapes → ty.rewritten.Normal limit seen
  modified : ty.isModified = true → bs.head?.bind modKind? ≠ none
  byRef : ty.isByRef = true → bs.head? = some ElementType.byRef

/-- The same of a method signature, whose first byte tells nothing. -/
def MethodSig.Reread (limit : Nat) (seen : Bool) (m : MethodSig) : Prop :=
  Roomy m.shapes → m.rewritten.Normal limit seen

variable {limit : Nat} {seen : Bool} {T : Bool → Grammar SigType} {M : Bool → Grammar MethodSig}

/-- A type that follows modifiers is not `Modified` itself. -/
theorem SigType.Reread.plain {ty : SigType} {bs cs : List UInt8} {mods : List CustomMod}
    (h : ty.Reread limit seen bs) (hmods : ModsAhead limit mods cs bs.head?) :
    ty.isModified = false := by
  cases hmod : ty.isModified with
  | false => rfl
  | true => exact absurd hmods.2.2 (h.modified hmod)

/-- What a type behind an element type byte has to be. -/
structure BodyReread (limit : Nat) (seen : Bool) (byte : UInt8) (ty : SigType) : Prop where
  normal : Roomy ty.shapes → ty.rewritten.Normal limit seen
  plain : ty.isModified = false
  byRef : ty.isByRef = true → byte = ElementType.byRef

theorem bodyReread_primitive {byte : UInt8} {ty : SigType}
    (h : SigType.primitive? byte = some ty) : BodyReread limit seen byte ty := by
  unfold SigType.primitive? at h
  split at h <;> first | (cases h; exact ⟨fun _ => trivial, rfl, nofun⟩) | cases h

theorem bodyGrammar_reread (hT : ∀ seen, (T seen).Each (SigType.Reread limit seen))
    (hpos : ∀ seen, (T seen).Nonempty)
    (hM : ∀ seen, (M seen).Each fun m _ => m.Reread limit seen) (byte : UInt8) :
    (bodyGrammar limit T M seen byte).Each fun ty _ => BodyReread limit seen byte ty := by
  unfold bodyGrammar
  cases hprimitive : SigType.primitive? byte with
  | some primitive => exact Grammar.Each.pure (bodyReread_primitive hprimitive)
  | none =>
      refine Grammar.Each.ite ?_ ?_
      · rintro ty bs ms ⟨mods, cs, ds, hmods, ⟨inner, rfl, hinner⟩, rfl⟩
        have hreread := hT seen inner ds ms hinner
        exact ⟨fun hroom => ⟨hmods.normal, by simpa using hreread.plain hmods,
          hreread.normal hroom⟩, rfl, nofun⟩
      by_cases hbyRef : byte = ElementType.byRef
      · rw [if_pos hbyRef]
        exact Grammar.Each.map (hT seen) fun inner _ h => ⟨h.normal, rfl, fun _ => hbyRef⟩
      rw [if_neg hbyRef]
      -- a token or an index, with no type below it
      refine Grammar.Each.ite (Grammar.Each.map tokenGrammar_isType fun _ _ h =>
        ⟨fun _ => h, rfl, nofun⟩) ?_
      refine Grammar.Each.ite (Grammar.Each.map tokenGrammar_isType fun _ _ h =>
        ⟨fun _ => h, rfl, nofun⟩) ?_
      refine Grammar.Each.ite (Grammar.Each.map cu32Grammar_le fun _ _ h =>
        ⟨fun _ => h, rfl, nofun⟩) ?_
      refine Grammar.Each.ite (Grammar.Each.map cu32Grammar_le fun _ _ h =>
        ⟨fun _ => h, rfl, nofun⟩) ?_
      refine Grammar.Each.ite ?_ ?_
      · rintro ty bs ms ⟨mods, cs, ds, hmods, ⟨element, rfl, helement⟩, rfl⟩
        have hreread := hT seen element ds ms helement
        exact ⟨fun hroom => ⟨hmods.normal, by simpa using hreread.plain hmods,
          hreread.normal hroom⟩, rfl, nofun⟩
      refine Grammar.Each.ite ?_ ?_
      · refine Grammar.Each.bind (hT seen) fun element _ helement => ?_
        refine Grammar.Each.map arrayShapeGrammar_normal fun shape _ hshape => ?_
        refine ⟨fun hroom => ?_, rfl, nofun⟩
        obtain ⟨hinner, hown⟩ := roomy_append.mp hroom
        exact ⟨helement.normal hinner, hshape (hown shape (List.mem_singleton_self _))⟩
      refine Grammar.Each.ite ?_ ?_
      · refine Grammar.Each.bind (Grammar.Each.trivial _) fun isValueType _ _ => ?_
        refine Grammar.Each.bind tokenGrammar_isType fun definition _ hdefinition => ?_
        have hargs : (T seen).Each fun ty _ =>
            Roomy ty.shapes → ty.rewritten.Normal limit seen :=
          (hT seen).mono fun _ _ h => h.normal
        refine Grammar.Each.map (countedGrammar_each (hpos seen) hargs) fun args _ hargs => ?_
        refine ⟨fun hroom => ?_, rfl, nofun⟩
        have hrooms : ∀ ty ∈ args, Roomy ty.shapes := by
          rw [← roomy_flatMap, ← SigType.shapesAll_eq]
          exact hroom
        refine ⟨hdefinition, ?_, SigType.normalAll_iff.mpr ?_⟩
        · rw [SigType.rewrittenAll_eq, List.length_map]
          exact hargs.1
        · rw [SigType.rewrittenAll_eq, List.forall_mem_map]
          exact fun ty hty => hargs.2 ty hty (hrooms ty hty)
      refine Grammar.Each.ite (Grammar.Each.map (hM seen) fun m _ h => ⟨h, rfl, nofun⟩) ?_
      refine Grammar.Each.ite ?_ (Grammar.Each.none _)
      rintro ty bs ms ⟨hseen, inner, rfl, hinner⟩
      exact ⟨fun hroom => ⟨hseen, (hT true inner bs ms hinner).normal hroom⟩, rfl, nofun⟩

theorem typeInnerGrammar_reread (hT : ∀ seen, (T seen).Each (SigType.Reread limit seen))
    (hpos : ∀ seen, (T seen).Nonempty)
    (hM : ∀ seen, (M seen).Each fun m _ => m.Reread limit seen) (seen : Bool) :
    (typeInnerGrammar limit T M seen).Each (SigType.Reread limit seen) := by
  rintro ty bs ms ⟨mods, cs, ds, hmods, hty, rfl⟩
  cases mods with
  | nil =>
      obtain rfl : cs = [] := hmods.1
      obtain ⟨byte, cs, ds, ks, ns, ⟨rfl, _⟩, hbody, rfl, _⟩ := hty
      obtain ⟨hnormal, hplain, hbyRef⟩ := bodyGrammar_reread hT hpos hM byte ty ds ns hbody
      exact ⟨hnormal, fun h => (by rw [hplain] at h; cases h), fun h => congrArg some (hbyRef h)⟩
  | cons mod mods =>
      obtain ⟨inner, rfl, hinner⟩ := hty
      have hreread := hT seen inner ds ms hinner
      refine ⟨fun hroom => ?_, fun _ => ?_, nofun⟩
      · exact ⟨List.cons_ne_nil _ _, hmods.normal, by simpa using hreread.plain hmods,
          hreread.normal hroom⟩
      · obtain ⟨⟨b, es, fs, hkind, _, _, rfl⟩, _⟩ := hmods
        rw [List.cons_append, List.head?_cons, Option.bind_some, hkind]
        nofun

/-! ## Parameters and method signatures -/

/-- Behind modifiers and a byte that was looked for, a type is not what they would have read. -/
theorem SigType.Reread.head {ty : SigType} {byRef : Bool} {mods : List CustomMod}
    {bs cs ds : List UInt8} (h : ty.Reread limit seen bs)
    (hmods : ModsAhead limit mods cs (ds ++ bs).head?)
    (htaken : TakenIf ElementType.byRef byRef ds bs.head?) (hno : byRef = false) :
    ty.rewritten.isByRef = false ∧ ty.rewritten.isModified = false := by
  rcases htaken with ⟨hyes, _⟩ | ⟨_, rfl, b, hb, hne⟩
  · rw [hno] at hyes
    cases hyes
  · rw [SigType.isByRef_rewritten, SigType.isModified_rewritten]
    refine ⟨?_, h.plain hmods⟩
    cases hbyRef : ty.isByRef with
    | false => rfl
    | true =>
        have hhead := h.byRef hbyRef
        rw [hb] at hhead
        exact absurd (Option.some.inj hhead) hne

/-- What is promised of a parameter. -/
def Param.Reread (limit : Nat) (seen : Bool) (param : Param) : Prop :=
  Roomy param.shapes → param.rewritten.Normal limit seen

theorem paramGrammar_reread {R : Grammar SigType} (hR : R.Each (SigType.Reread limit seen)) :
    (paramGrammar limit R).Each fun param _ => param.Reread limit seen := by
  rintro param bs ms ⟨mods, cs, ds, hmods, ⟨byRef, es, fs, htaken, ⟨ty, rfl, hty⟩, rfl⟩, rfl⟩
  have hreread := hR ty fs ms hty
  exact fun hroom => ⟨hmods.normal, hreread.head hmods htaken, hreread.normal hroom⟩

theorem methodParamsGrammar_reread {R : Grammar Param}
    (hR : R.Each fun param _ => param.Reread limit seen) :
    ∀ count past, (methodParamsGrammar R count past).Each fun lists _ =>
      lists.1.length + lists.2.length = count ∧
        ∀ param ∈ lists.1 ++ lists.2, param.Reread limit seen
  | 0, _ => Grammar.Each.pure ⟨rfl, fun _ hmem => nomatch hmem⟩
  | count + 1, _ => by
      refine Grammar.Each.ahead_value fun past => Grammar.Each.bind hR fun first _ hfirst => ?_
      refine Grammar.Each.map (methodParamsGrammar_reread hR count past) ?_
      rintro others _ ⟨hlen, hothers⟩
      cases past with
      | false => exact ⟨by simp; omega, List.forall_mem_cons.mpr ⟨hfirst, hothers⟩⟩
      | true =>
          refine ⟨by simp; omega, ?_⟩
          intro param hmem
          rcases List.mem_append.mp hmem with hmem | hmem
          · exact hothers param (List.mem_append_left _ hmem)
          · rcases List.mem_cons.mp hmem with rfl | hmem
            · exact hfirst
            · exact hothers param (List.mem_append_right _ hmem)

theorem Param.normalAll_rewritten {params : List Param}
    (h : ∀ param ∈ params, param.Reread limit seen)
    (hroom : Roomy (params.flatMap Param.shapes)) :
    Param.NormalAll limit seen (Param.rewrittenAll params) := by
  rw [Param.normalAll_iff, Param.rewrittenAll_eq, List.forall_mem_map]
  exact fun param hmem => h param hmem (roomy_flatMap.mp hroom param hmem)

theorem methodInnerGrammar_reread {R : Grammar Param}
    (hR : R.Each fun param _ => param.Reread limit seen)
    (hkept : (methodInnerGrammar R).Each fun m _ => m.Kept) :
    (methodInnerGrammar R).Each fun m _ => m.Reread limit seen := by
  have hparts : (methodPartsGrammar R).Each fun m _ => m.callingConvention.IsMethod ∧
      m.params.length + m.varargParams.length ≤ Compressed.maxCompressedU32 ∧
      m.returnType.Reread limit seen ∧
      ∀ param ∈ m.params ++ m.varargParams, param.Reread limit seen := by
    refine Grammar.Each.bind headerGrammar_isMethod fun header _ hheader => ?_
    refine Grammar.Each.bind cu32Grammar_le fun count _ hcount => ?_
    refine Grammar.Each.bind hR fun returnType _ hreturn => ?_
    refine Grammar.Each.map (methodParamsGrammar_reread hR count false) ?_
    rintro lists _ ⟨hlen, hlists⟩
    exact ⟨hheader, hlen ▸ hcount, hreturn, hlists⟩
  rintro m bs ms hm hroom
  obtain ⟨henc, _⟩ := hkept m bs ms hm
  obtain ⟨⟨_, convention, hasThis, explicitThis, returnType, params, varargParams⟩, rfl,
    hspelled⟩ := hm
  obtain ⟨hconvention, hcount, hreturn, hlists⟩ := hparts _ bs ms hspelled
  rw [MethodSig.shapes_eq] at hroom
  obtain ⟨_, hroom⟩ := roomy_append.mp hroom
  obtain ⟨hroomReturn, hroom⟩ := roomy_append.mp hroom
  obtain ⟨hroomParams, hroomVarargs⟩ := roomy_append.mp hroom
  refine ⟨hconvention, ?_, hreturn hroomReturn, ?_, ?_, henc.symm⟩
  · rw [Param.rewrittenAll_length, Param.rewrittenAll_length]
    exact hcount
  · exact Param.normalAll_rewritten (fun param hmem =>
      hlists param (List.mem_append_left _ hmem)) hroomParams
  · exact Param.normalAll_rewritten (fun param hmem =>
      hlists param (List.mem_append_right _ hmem)) hroomVarargs

/-- Rewriting keeps what is written and how deep it nests, with `n` levels left. -/
theorem typeGrammar_kept (limit : Nat) : ∀ n seen,
    ((typeGrammar limit n seen).Each fun ty _ => ty.Kept) ∧
      (methodGrammar limit n seen).Each fun m _ => m.Kept :=
  typeGrammar_each limit (T := fun _ _ => SigType.Kept) (M := fun _ _ => MethodSig.Kept)
    (fun _ seen => kept_inherits seen) fun _ _ => kept_method

/-- With `n` levels left, what is read is in normal form once it is rewritten. -/
theorem typeGrammar_reread (limit : Nat) : ∀ n seen,
    (typeGrammar limit n seen).Each (SigType.Reread limit seen) ∧
      (methodGrammar limit n seen).Each fun m _ => m.Reread limit seen := by
  intro n
  induction n with
  | zero =>
      intro seen
      rw [typeGrammar, methodGrammar]
      exact ⟨Grammar.Each.none _, Grammar.Each.none _⟩
  | succ n ih =>
      intro seen
      have hkept := (typeGrammar_kept limit (n + 1) seen).2
      rw [methodGrammar] at hkept
      rw [typeGrammar, methodGrammar]
      exact ⟨typeInnerGrammar_reread (fun seen => (ih seen).1) (typeGrammar_nonempty limit n)
          (fun seen => (ih seen).2) seen,
        methodInnerGrammar_reread (paramGrammar_reread (ih seen).1) hkept⟩

/-! ## The signatures -/

/-- What an entry point reads. -/
structure SigType.Parsed (limit : Nat) (ty : SigType) (bs : List UInt8) : Prop where
  reread : ty.Reread limit false bs
  kept : ty.Kept
  depth_le : ty.depth ≤ limit

theorem SigType.grammar_parsed (limit : Nat) :
    (SigType.grammar limit).Each (SigType.Parsed limit) := by
  intro ty bs ms h
  exact ⟨(typeGrammar_reread limit limit false).1 ty bs ms h,
    (typeGrammar_kept limit limit false).1 ty bs ms h, SigType.grammar_depth limit ty bs ms h⟩

/-- A type with what is promised of it is written and read back. -/
def SigType.Settled (limit : Nat) (ty : SigType) : Prop :=
  ty.rewritten.enc = ty.enc ∧
    (Roomy ty.shapes → ty.rewritten.Normal limit false ∧ ty.rewritten.depth ≤ limit)

theorem SigType.Parsed.settled {ty : SigType} {bs : List UInt8} (h : ty.Parsed limit bs) :
    ty.Settled limit :=
  ⟨h.kept.1, fun hroom => ⟨h.reread.normal hroom, h.kept.2 ▸ h.depth_le⟩⟩

def Param.Settled (limit : Nat) (param : Param) : Prop :=
  param.rewritten.enc = param.enc ∧
    (Roomy param.shapes → param.rewritten.Normal limit false ∧ param.rewritten.depth ≤ limit)

theorem Param.grammar_settled (limit : Nat) :
    (Param.grammar limit).Each fun param _ => param.Settled limit := by
  intro param bs ms h
  have hreread := paramGrammar_reread (typeGrammar_reread limit limit false).1 param bs ms h
  have hkept := Param.kept (paramGrammar_each (typeGrammar_kept limit limit false).1 param bs ms h)
  have hdepth := paramGrammar_each (SigType.grammar_depth limit) param bs ms h
  refine ⟨hkept.1, fun hroom => ⟨hreread hroom, ?_⟩⟩
  rw [hkept.2, Param.depth_eq]
  exact hdepth

/-- What a parser returned is spelled by a front part of the blob. -/
theorem Parser.exists_spelled {α : Type} {options : SignatureOptions} {x : Parse α} {R : Grammar α}
    (haccepts : Accepts (At options.limit 0 false) x R) {blob : List UInt8} {a : α}
    (h : finish (x.run (Parser.new blob options)) = .ok a) : ∃ bs ms, R a bs ms := by
  obtain ⟨p, hrun⟩ := Parser.finish_ok_iff.mp h
  obtain ⟨ms, hR⟩ := Parser.spelled_of_run haccepts hrun
  exact ⟨_, ms, hR⟩

theorem MethodSig.parse_reread {options : SignatureOptions} {blob : List UInt8} {m : MethodSig}
    (h : MethodSig.parseWith blob options = .ok m) (hroom : Roomy m.shapes) (s : List UInt8) :
    MethodSig.parseWith (m.enc ++ s) options = .ok m.rewritten := by
  obtain ⟨bs, ms, hR⟩ := Parser.exists_spelled (MethodSig.accepts options.limit) h
  obtain ⟨henc, hdepth⟩ := (typeGrammar_kept options.limit options.limit false).2 m bs ms hR
  have hle : m.depth ≤ options.limit :=
    (typeGrammar_depth options.limit options.limit false).2 m bs ms hR
  have hnormal := (typeGrammar_reread options.limit options.limit false).2 m bs ms hR hroom
  rw [← hdepth] at hle
  have hspells := (spells_enc options.limit options.limit).method m.rewritten false hle hnormal
  rw [henc] at hspells
  exact Parser.parsed_of_spells (MethodSig.accepts options.limit) hspells s

theorem FieldSig.parse_reread {options : SignatureOptions} {blob : List UInt8} {sig : FieldSig}
    (h : FieldSig.parseWith blob options = .ok sig) (hroom : Roomy sig.type_.shapes)
    (s : List UInt8) : FieldSig.parseWith (sig.enc ++ s) options =
      .ok { sig.rewritten with raw := sig.enc ++ s } := by
  obtain ⟨_, ms, hR⟩ := Parser.exists_spelled (FieldSig.accepts options.limit blob) h
  obtain ⟨_, _, _, _, _, _, ⟨mods, cs, ds, hmods, ⟨ty, rfl, hty⟩, rfl⟩, _, _⟩ := hR
  have hparsed := SigType.grammar_parsed options.limit ty ds _ hty
  obtain ⟨henc, hsettled⟩ := hparsed.settled
  obtain ⟨hnormal, hdepth⟩ := hsettled hroom
  have hplain : ty.rewritten.isModified = false := by
    rw [SigType.isModified_rewritten]
    exact hparsed.reread.plain hmods
  have hsame : (⟨blob, mods, ty.rewritten⟩ : FieldSig).enc = (⟨blob, mods, ty⟩ : FieldSig).enc := by
    rw [FieldSig.enc, FieldSig.enc, henc]
  have hfield : (⟨blob, mods, ty.rewritten⟩ : FieldSig).Normal options.limit :=
    ⟨hmods.normal, hplain, hnormal, hdepth⟩
  have hspells := FieldSig.spells_enc hfield ((⟨blob, mods, ty⟩ : FieldSig).enc ++ s)
  rw [hsame] at hspells
  exact Parser.parsed_of_spells (FieldSig.accepts options.limit _) hspells s

theorem TypeSpecSig.parse_reread {options : SignatureOptions} {blob : List UInt8}
    {sig : TypeSpecSig} (h : TypeSpecSig.parseWith blob options = .ok sig)
    (hroom : Roomy sig.type_.shapes) (s : List UInt8) :
    TypeSpecSig.parseWith (sig.enc ++ s) options =
      .ok { sig.rewritten with raw := sig.enc ++ s } := by
  obtain ⟨bs, ms, ty, rfl, hty⟩ := Parser.exists_spelled (TypeSpecSig.accepts options.limit blob) h
  obtain ⟨henc, hsettled⟩ := (SigType.grammar_parsed options.limit ty bs ms hty).settled
  obtain ⟨hnormal, hdepth⟩ := hsettled hroom
  have hspells := SigType.spells_normal hnormal hdepth
  rw [henc] at hspells
  exact Parser.parsed_of_spells (TypeSpecSig.accepts options.limit _)
    (hspells.map (TypeSpecSig.mk (ty.enc ++ s))) s

theorem MethodSpecSig.parse_reread {options : SignatureOptions} {blob : List UInt8}
    {sig : MethodSpecSig} (h : MethodSpecSig.parseWith blob options = .ok sig)
    (hroom : ∀ ty ∈ sig.args, Roomy ty.shapes) (s : List UInt8) :
    MethodSpecSig.parseWith (sig.enc ++ s) options =
      .ok { sig.rewritten with raw := sig.enc ++ s } := by
  obtain ⟨_, ms, hR⟩ := Parser.exists_spelled (MethodSpecSig.accepts options.limit blob) h
  obtain ⟨_, _, _, _, _, _, ⟨args, rfl, hargs⟩, _, _⟩ := hR
  have hsettled : (SigType.grammar options.limit).Each fun ty _ => ty.Settled options.limit :=
    (SigType.grammar_parsed options.limit).mono fun _ _ h => h.settled
  obtain ⟨hlen, hall⟩ := countedGrammar_each (SigType.grammar_nonempty options.limit) hsettled
    args _ _ hargs
  have hnormal : (⟨blob, args.map SigType.rewritten⟩ : MethodSpecSig).Normal options.limit := by
    refine ⟨by rwa [List.length_map], ?_⟩
    rw [List.forall_mem_map]
    exact fun ty hty => (hall ty hty).2 (hroom ty hty)
  have hsame : (⟨blob, args.map SigType.rewritten⟩ : MethodSpecSig).enc =
      (⟨blob, args⟩ : MethodSpecSig).enc := by
    rw [MethodSpecSig.enc, MethodSpecSig.enc, SigType.encAll_eq, SigType.encAll_eq,
      List.length_map, List.flatMap_map]
    congr 2
    exact List.flatMap_congr fun ty hty => (hall ty hty).1
  have hspells := MethodSpecSig.spells_enc hnormal ((⟨blob, args⟩ : MethodSpecSig).enc ++ s)
  rw [hsame] at hspells
  exact Parser.parsed_of_spells (MethodSpecSig.accepts options.limit _) hspells s

theorem PropertySig.parse_reread {options : SignatureOptions} {blob : List UInt8}
    {sig : PropertySig} (h : PropertySig.parseWith blob options = .ok sig)
    (hroom : ∀ param ∈ sig.returnType :: sig.params, Roomy param.shapes) (s : List UInt8) :
    PropertySig.parseWith (sig.enc ++ s) options =
      .ok { sig.rewritten with raw := sig.enc ++ s } := by
  obtain ⟨_, ms, hR⟩ := Parser.exists_spelled (PropertySig.accepts options.limit blob) h
  obtain ⟨byte, _, _, _, _, _, ⟨count, _, _, _, _, hcount, ⟨returnType, _, _, _, _, hreturn,
    ⟨params, rfl, hparams⟩, _, _⟩, _, _⟩, _, _⟩ := hR
  have hsettled := Param.grammar_settled options.limit
  have hall := List.forall_mem_cons.mpr ⟨hsettled returnType _ _ hreturn,
    Grammar.Each.repeated hsettled count params _ _ hparams⟩
  obtain ⟨hlen, _⟩ := Grammar.repeated_length (Param.grammar_nonempty options.limit) hparams
  let sig : PropertySig := ⟨blob, byte &&& CallingConvention.hasThis ≠ 0, returnType, params⟩
  have hnormal : sig.rewritten.Normal options.limit := by
    refine ⟨?_, ?_⟩
    · show (params.map Param.rewritten).length ≤ _
      rw [List.length_map, hlen]
      exact cu32Grammar_le count _ _ hcount
    · show ∀ param ∈ (returnType :: params).map Param.rewritten, _
      rw [List.forall_mem_map]
      exact fun param hmem => (hall param hmem).2 (hroom param hmem)
  have hsame : sig.rewritten.enc = sig.enc := by
    show _ :: (Compressed.bytes (params.map Param.rewritten).length ++
      (returnType.rewritten.enc ++ Param.encAll (params.map Param.rewritten))) = _
    rw [PropertySig.enc, Param.encAll_eq, Param.encAll_eq, List.length_map, List.flatMap_map,
      (hall returnType List.mem_cons_self).1]
    congr 3
    exact List.flatMap_congr fun param hmem => (hall param (List.mem_cons_of_mem _ hmem)).1
  have hspells := PropertySig.spells_enc hnormal (sig.enc ++ s)
  rw [hsame] at hspells
  exact Parser.parsed_of_spells (PropertySig.accepts options.limit _) hspells s

/-! ## Locals -/

/-- The local is within the limits by itself: the modifiers on both sides of `PINNED` together,
and its type where no level was opened for it. -/
structure LocalVar.Limited (limit : Nat) (l : LocalVar) : Prop where
  mods_le : l.customMods.length ≤ limit
  depth_le : l.type_.depth ≤ limit

/-- What is promised of a local. -/
structure LocalVar.Settled (limit : Nat) (l : LocalVar) : Prop where
  enc_eq : ∀ before, l.rewritten.enc before = l.enc before
  normal : Roomy l.type_.shapes → l.Limited limit → l.rewritten.Normal limit

theorem plainLocalGrammar_settled (limit : Nat) :
    (plainLocalGrammar limit (SigType.grammar limit)).Each fun l _ => l.Settled limit := by
  rintro l bs ms ⟨mods, cs, _, hmods, ⟨pinned, es, _, hpinned, ⟨more, gs, _, hmore,
    ⟨byRef, is, _, hbyRef, ⟨ty, js, _, ks, _, hty, ⟨hnotPinned, rfl, rfl, _⟩, rfl, _⟩, rfl⟩, rfl⟩,
    rfl⟩, rfl⟩
  rw [List.append_nil] at hmods hpinned hmore hbyRef
  have hparsed := SigType.grammar_parsed limit ty js ks hty
  obtain ⟨henc, hsettled⟩ := hparsed.settled
  have hhead : byRef = false →
      ty.rewritten.isByRef = false ∧ ty.rewritten.isModified = false := by
    cases pinned with
    | true => exact hparsed.reread.head hmore hbyRef
    | false =>
        -- nothing stands between the modifiers and the `BYREF`
        rcases hpinned with ⟨h, _⟩ | ⟨_, rfl, _⟩
        · cases h
        obtain ⟨_, rfl⟩ := hmore
        exact hparsed.reread.head hmods hbyRef
  have hmoreTypes : ∀ mod ∈ more, mod.typeToken.IsType := by
    cases pinned with
    | true => exact hmore.1.isType
    | false =>
        obtain ⟨rfl, _⟩ := hmore
        exact fun _ hmem => nomatch hmem
  refine ⟨fun before => ?_, fun hroom hlimited => ?_⟩
  · show _ ++ (_ ++ ty.rewritten.enc) = _ ++ (_ ++ ty.enc)
    rw [henc]
    rfl
  · obtain ⟨hnormal, hdepth⟩ := hsettled hroom
    refine ⟨⟨hlimited.mods_le, fun mod hmem => ?_⟩, hhead, ?_, hnormal, hdepth⟩
    · rcases List.mem_append.mp hmem with hmem | hmem
      · exact hmods.1.isType mod hmem
      · exact hmoreTypes mod hmem
    · rw [LocalVar.rewritten, SigType.isPinned_rewritten]
      exact hnotPinned

theorem localGrammar_settled (limit : Nat) :
    (localGrammar limit (SigType.grammar limit)).Each fun l _ => l.Settled limit := by
  rintro l bs ms ⟨bare, cs, ds, _, hl, rfl⟩
  cases bare with
  | false => exact plainLocalGrammar_settled limit l ds ms hl
  | true =>
      obtain ⟨rfl, _⟩ := hl
      exact ⟨fun _ => rfl, fun _ hlimited =>
        ⟨⟨Nat.zero_le _, fun _ hmem => nomatch hmem⟩, fun _ => ⟨rfl, rfl⟩, rfl, trivial,
          hlimited.depth_le⟩⟩

theorem LocalVar.encAll_rewritten {locals : List LocalVar}
    (h : ∀ l ∈ locals, ∀ before, l.rewritten.enc before = l.enc before) (before : Nat → Nat) :
    LocalVar.encAll before (locals.map LocalVar.rewritten) = LocalVar.encAll before locals := by
  induction locals generalizing before with
  | nil => rfl
  | cons l locals ih =>
      obtain ⟨hl, hlocals⟩ := List.forall_mem_cons.mp h
      rw [List.map_cons, encAll, encAll, hl, ih hlocals]

theorem LocalVarSig.parse_reread {options : SignatureOptions} {blob : List UInt8}
    {sig : LocalVarSig} (h : LocalVarSig.parseWith blob options = .ok sig)
    (hroom : ∀ l ∈ sig.locals, Roomy l.type_.shapes ∧ l.Limited options.limit)
    (before : Nat → Nat) (s : List UInt8) :
    LocalVarSig.parseWith (sig.enc before ++ s) options =
      .ok { sig.rewritten with raw := sig.enc before ++ s } := by
  obtain ⟨_, ms, hR⟩ := Parser.exists_spelled (LocalVarSig.accepts options.limit blob) h
  obtain ⟨_, _, _, _, _, _, ⟨locals, rfl, hlocals⟩, _, _⟩ := hR
  have hpos : (localGrammar options.limit (SigType.grammar options.limit)).Nonempty :=
    localGrammar_nonempty (SigType.grammar_nonempty options.limit)
  obtain ⟨hlen, hall⟩ := countedGrammar_each hpos (localGrammar_settled options.limit)
    locals _ _ hlocals
  let sig : LocalVarSig := ⟨blob, locals⟩
  have hnormal : sig.rewritten.Normal options.limit := by
    refine ⟨?_, ?_⟩
    · show (locals.map LocalVar.rewritten).length ≤ _
      rwa [List.length_map]
    · show ∀ l ∈ locals.map LocalVar.rewritten, _
      rw [List.forall_mem_map]
      exact fun l hl => (hall l hl).normal (hroom l hl).1 (hroom l hl).2
  have hsame : sig.rewritten.enc before = sig.enc before := by
    show _ :: (Compressed.bytes (locals.map LocalVar.rewritten).length ++
      LocalVar.encAll before (locals.map LocalVar.rewritten)) = _
    rw [List.length_map, LocalVar.encAll_rewritten fun l hl => (hall l hl).enc_eq]
    rfl
  have hspells := LocalVarSig.spells_enc hnormal before (sig.enc before ++ s)
  rw [hsame] at hspells
  exact Parser.parsed_of_spells (LocalVarSig.accepts options.limit _) hspells s

/-! ## All six -/

/-- What any of the six parsers returns, written once more, is read back as it was, but for the
bytes that method signatures keep: whatever the blob looked like, when its array shapes leave room
for their ranks and its locals are within the limits by themselves. -/
theorem signatures_reread (options : SignatureOptions) (blob s : List UInt8) :
    (∀ m, MethodSig.parseWith blob options = .ok m → Roomy m.shapes →
      MethodSig.parseWith (m.enc ++ s) options = .ok m.rewritten) ∧
    (∀ sig, FieldSig.parseWith blob options = .ok sig → Roomy sig.type_.shapes →
      FieldSig.parseWith (sig.enc ++ s) options =
        .ok { sig.rewritten with raw := sig.enc ++ s }) ∧
    (∀ sig, LocalVarSig.parseWith blob options = .ok sig →
      (∀ l ∈ sig.locals, Roomy l.type_.shapes ∧ l.Limited options.limit) →
      ∀ before, LocalVarSig.parseWith (sig.enc before ++ s) options =
        .ok { sig.rewritten with raw := sig.enc before ++ s }) ∧
    (∀ sig, PropertySig.parseWith blob options = .ok sig →
      (∀ param ∈ sig.returnType :: sig.params, Roomy param.shapes) →
      PropertySig.parseWith (sig.enc ++ s) options =
        .ok { sig.rewritten with raw := sig.enc ++ s }) ∧
    (∀ sig, MethodSpecSig.parseWith blob options = .ok sig →
      (∀ ty ∈ sig.args, Roomy ty.shapes) →
      MethodSpecSig.parseWith (sig.enc ++ s) options =
        .ok { sig.rewritten with raw := sig.enc ++ s }) ∧
    (∀ sig, TypeSpecSig.parseWith blob options = .ok sig → Roomy sig.type_.shapes →
      TypeSpecSig.parseWith (sig.enc ++ s) options =
        .ok { sig.rewritten with raw := sig.enc ++ s }) :=
  ⟨fun _ h hroom => MethodSig.parse_reread h hroom s,
    fun _ h hroom => FieldSig.parse_reread h hroom s,
    fun _ h hroom before => LocalVarSig.parse_reread h hroom before s,
    fun _ h hroom => PropertySig.parse_reread h hroom s,
    fun _ h hroom => MethodSpecSig.parse_reread h hroom s,
    fun _ h hroom => TypeSpecSig.parse_reread h hroom s⟩

/-- `void ()` behind a count that takes two bytes for its zero. -/
theorem signatures_reread_void :
    MethodSig.parseWith ([0x00, 0x00, 0x01] ++ [0xFF]) .default =
      .ok ⟨[0x00, 0x00, 0x01], .default, false, false, ⟨[], false, .void⟩, [], []⟩ :=
  (signatures_reread .default [0x00, 0x80, 0x00, 0x01] [0xFF]).1
    ⟨[0x00, 0x80, 0x00, 0x01], .default, false, false, ⟨[], false, .void⟩, [], []⟩ rfl
    fun _ hmem => nomatch hmem

end Cildec
