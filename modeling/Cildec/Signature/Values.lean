import Cildec.Signature.Entry

/-!
# What holds of every value that is read

A property of types that each constructor inherits from its parts holds of every type a
grammar spells (`typeGrammar_each`, by induction on the levels that are left), and with it
of the types in each of the six signatures.
-/

namespace Cildec

open Wire Cildec.Parser

/-- A type has `Q` when its parts have `T` and `M`, and `P` below a `PINNED`, which there is
none of where one was seen. -/
structure Inherits (seen : Bool) (T P : SigType → Prop) (M : MethodSig → Prop)
    (Q : SigType → Prop) : Prop where
  primitive : ∀ {byte ty}, SigType.primitive? byte = some ty → Q ty
  valueType : ∀ token, Q (.valueType token)
  class_ : ∀ token, Q (.class_ token)
  var : ∀ index, Q (.var index)
  mvar : ∀ index, Q (.mvar index)
  modified : ∀ mods ty, T ty → Q (.modified mods ty)
  ptr : ∀ mods ty, T ty → Q (.ptr mods ty)
  byRef : ∀ ty, T ty → Q (.byRef ty)
  szArray : ∀ mods ty, T ty → Q (.szArray mods ty)
  array : ∀ ty shape, T ty → Q (.array ty shape)
  genericInst : ∀ isValueType definition args, (∀ ty ∈ args, T ty) →
    Q (.genericInst isValueType definition args)
  fnPtr : ∀ m, M m → Q (.fnPtr m)
  pinned : seen = false → ∀ ty, P ty → Q (.pinned ty)

/-- A method signature has `M` when the types of its parameters and its return type have `T`. -/
def MethodInherits (T : SigType → Prop) (M : MethodSig → Prop) : Prop :=
  ∀ m : MethodSig, T m.returnType.type_ → (∀ p ∈ m.params, T p.type_) →
    (∀ p ∈ m.varargParams, T p.type_) → M m

variable {limit : Nat} {seen : Bool} {TG : Bool → Grammar SigType} {MG : Bool → Grammar MethodSig}
  {T P Q : SigType → Prop} {M : MethodSig → Prop}

/-! ## Types -/

theorem bodyGrammar_each (h : Inherits seen T P M Q) (hT : (TG seen).Each fun ty _ => T ty)
    (hP : (TG true).Each fun ty _ => P ty) (hM : (MG seen).Each fun m _ => M m)
    (byte : UInt8) : (bodyGrammar limit TG MG seen byte).Each fun ty _ => Q ty := by
  have hleaf : ∀ {α : Type} {R : Grammar α} {f : α → SigType}, (∀ a, Q (f a)) →
      (R.map f).Each fun ty _ => Q ty :=
    fun hf => Grammar.Each.map (Grammar.Each.trivial _) fun a _ _ => hf a
  have hinner : ∀ f : SigType → SigType, (∀ ty, T ty → Q (f ty)) →
      ((TG seen).map f).Each fun ty _ => Q ty :=
    fun f hf => Grammar.Each.map hT fun ty _ hty => hf ty hty
  unfold bodyGrammar
  cases hprimitive : SigType.primitive? byte with
  | some primitive => exact Grammar.Each.pure (h.primitive hprimitive)
  | none =>
      refine Grammar.Each.ite (Grammar.Each.ahead_value fun mods => hinner _ (h.ptr mods)) ?_
      refine Grammar.Each.ite (hinner _ h.byRef) ?_
      -- a token or an index, with no type below it
      refine Grammar.Each.ite (hleaf h.valueType) ?_
      refine Grammar.Each.ite (hleaf h.class_) ?_
      refine Grammar.Each.ite (hleaf h.var) ?_
      refine Grammar.Each.ite (hleaf h.mvar) ?_
      refine Grammar.Each.ite (Grammar.Each.ahead_value fun mods => hinner _ (h.szArray mods)) ?_
      refine Grammar.Each.ite ?_ ?_
      · refine Grammar.Each.bind hT fun element _ helement => ?_
        exact Grammar.Each.map (Grammar.Each.trivial _) fun shape _ _ => h.array _ _ helement
      refine Grammar.Each.ite ?_ ?_
      · refine Grammar.Each.bind (Grammar.Each.trivial _) fun isValueType _ _ => ?_
        refine Grammar.Each.bind (Grammar.Each.trivial _) fun definition _ _ => ?_
        have hargs : (countedGrammar (TG seen)).Each fun args _ => ∀ ty ∈ args, T ty :=
          Grammar.Each.bind (Grammar.Each.trivial _) fun count _ _ => Grammar.Each.repeated hT count
        exact Grammar.Each.map hargs fun args _ => h.genericInst _ _ args
      refine Grammar.Each.ite (Grammar.Each.map hM fun m _ => h.fnPtr m) ?_
      refine Grammar.Each.ite ?_ (Grammar.Each.none _)
      rintro ty bs ms ⟨hseen, inner, rfl, hinner⟩
      exact h.pinned hseen inner (hP inner bs ms hinner)

theorem typeInnerGrammar_each (h : Inherits seen T P M Q) (hT : (TG seen).Each fun ty _ => T ty)
    (hP : (TG true).Each fun ty _ => P ty) (hM : (MG seen).Each fun m _ => M m) :
    (typeInnerGrammar limit TG MG seen).Each fun ty _ => Q ty :=
  Grammar.Each.ahead_value fun mods => Grammar.Each.ite
    (Grammar.Each.bind (Grammar.Each.trivial _) fun byte _ _ => bodyGrammar_each h hT hP hM byte)
    (Grammar.Each.map hT fun ty _ => h.modified mods ty)

/-! ## Parameters and method signatures -/

theorem paramGrammar_each {R : Grammar SigType} (h : R.Each fun ty _ => T ty) :
    (paramGrammar limit R).Each fun p _ => T p.type_ :=
  Grammar.Each.ahead_value fun _ => Grammar.Each.ahead_value fun _ =>
    Grammar.Each.map h fun _ _ hty => hty

theorem methodParamsGrammar_each {R : Grammar Param} (h : R.Each fun p _ => T p.type_) :
    ∀ count past, (methodParamsGrammar R count past).Each fun lists _ =>
      (∀ p ∈ lists.1, T p.type_) ∧ ∀ p ∈ lists.2, T p.type_
  | 0, _ => Grammar.Each.pure
      ⟨fun _ hmem => absurd hmem List.not_mem_nil, fun _ hmem => absurd hmem List.not_mem_nil⟩
  | count + 1, _ => by
      refine Grammar.Each.ahead_value fun past => Grammar.Each.bind h fun first _ hfirst => ?_
      refine Grammar.Each.map (methodParamsGrammar_each h count past) fun others _ hothers => ?_
      cases past with
      | false => exact ⟨List.forall_mem_cons.mpr ⟨hfirst, hothers.1⟩, hothers.2⟩
      | true => exact ⟨hothers.1, List.forall_mem_cons.mpr ⟨hfirst, hothers.2⟩⟩

/-- The bytes a method signature keeps do not matter. -/
theorem methodInnerGrammar_each (hM : MethodInherits T M) {R : Grammar Param}
    (h : R.Each fun p _ => T p.type_) : (methodInnerGrammar R).Each fun m _ => M m := by
  have hparts : (methodPartsGrammar R).Each fun m _ => T m.returnType.type_ ∧
      (∀ p ∈ m.params, T p.type_) ∧ ∀ p ∈ m.varargParams, T p.type_ := by
    refine Grammar.Each.bind (Grammar.Each.trivial _) fun header _ _ => ?_
    refine Grammar.Each.bind (Grammar.Each.trivial _) fun count _ _ => ?_
    refine Grammar.Each.bind h fun returnType _ hreturn => ?_
    exact Grammar.Each.map (methodParamsGrammar_each h count false) fun _ _ hlists =>
      ⟨hreturn, hlists⟩
  refine Grammar.Each.sourced hparts fun m raw hm => ?_
  exact hM _ hm.1 hm.2.1 hm.2.2

/-! ## The recursion -/

/-- A property that may depend on the levels left and on the flag. -/
theorem typeGrammar_each (limit : Nat) {T : Nat → Bool → SigType → Prop}
    {M : Nat → Bool → MethodSig → Prop}
    (hT : ∀ n seen, Inherits seen (T n seen) (T n true) (M n seen) (T (n + 1) seen))
    (hM : ∀ n seen, MethodInherits (T n seen) (M (n + 1) seen)) : ∀ n seen,
    ((typeGrammar limit n seen).Each fun ty _ => T n seen ty) ∧
      (methodGrammar limit n seen).Each fun m _ => M n seen m := by
  intro n
  induction n with
  | zero =>
      intro seen
      rw [typeGrammar, methodGrammar]
      exact ⟨Grammar.Each.none _, Grammar.Each.none _⟩
  | succ n ih =>
      intro seen
      rw [typeGrammar, methodGrammar]
      exact ⟨typeInnerGrammar_each (hT n seen) (ih seen).1 (ih true).1 (ih seen).2,
        methodInnerGrammar_each (hM n seen) (paramGrammar_each (ih seen).1)⟩

/-! ## The signatures -/

/-- The local that stands alone: no level is opened for its type. -/
def LocalVar.bare : LocalVar := ⟨[], false, false, .typedByRef⟩

theorem FieldSig.grammar_each (h : (SigType.grammar limit).Each fun ty _ => Q ty)
    (blob : List UInt8) : (FieldSig.grammar limit blob).Each fun sig _ => Q sig.type_ :=
  Grammar.Each.bind (Grammar.Each.trivial _) fun _ _ _ => Grammar.Each.ahead_value fun _ =>
    Grammar.Each.map h fun _ _ hty => hty

theorem localGrammar_each {R : Grammar SigType} (h : R.Each fun ty _ => Q ty) :
    (localGrammar limit R).Each fun l _ => Q l.type_ ∨ l = .bare := by
  have hplain : (plainLocalGrammar limit R).Each fun l _ => Q l.type_ := by
    refine Grammar.Each.ahead_value fun mods => Grammar.Each.ahead_value fun pinned => ?_
    refine Grammar.Each.ahead_value fun more => Grammar.Each.ahead_value fun byRef => ?_
    exact Grammar.Each.bind h fun ty _ hty => Grammar.Each.guard (Grammar.Each.pure hty)
  refine Grammar.Each.ahead_value fun bare => Grammar.Each.ite (Grammar.Each.pure (.inr rfl)) ?_
  exact hplain.mono fun _ _ hl => .inl hl

theorem LocalVarSig.grammar_each (h : (SigType.grammar limit).Each fun ty _ => Q ty)
    (blob : List UInt8) :
    (LocalVarSig.grammar limit blob).Each fun sig _ => ∀ l ∈ sig.locals, Q l.type_ ∨ l = .bare := by
  refine Grammar.Each.bind (Grammar.Each.trivial _) fun _ _ _ => Grammar.Each.map ?_ fun _ _ h => h
  exact Grammar.Each.bind (Grammar.Each.trivial _) fun count _ _ =>
    Grammar.Each.repeated (localGrammar_each h) count

theorem PropertySig.grammar_each (h : (SigType.grammar limit).Each fun ty _ => Q ty)
    (blob : List UInt8) :
    (PropertySig.grammar limit blob).Each fun sig _ =>
      Q sig.returnType.type_ ∧ ∀ param ∈ sig.params, Q param.type_ := by
  have hparam : (Param.grammar limit).Each fun param _ => Q param.type_ := paramGrammar_each h
  refine Grammar.Each.bind (Grammar.Each.trivial _) fun byte _ _ => ?_
  refine Grammar.Each.bind (Grammar.Each.trivial _) fun count _ _ => ?_
  refine Grammar.Each.bind hparam fun returnType _ hreturn => ?_
  exact Grammar.Each.map (Grammar.Each.repeated hparam count) fun params _ hparams =>
    ⟨hreturn, hparams⟩

theorem MethodSpecSig.grammar_each (h : (SigType.grammar limit).Each fun ty _ => Q ty)
    (blob : List UInt8) :
    (MethodSpecSig.grammar limit blob).Each fun sig _ => ∀ ty ∈ sig.args, Q ty := by
  refine Grammar.Each.bind (Grammar.Each.trivial _) fun _ _ _ => Grammar.Each.map ?_ fun _ _ h => h
  exact Grammar.Each.bind (Grammar.Each.trivial _) fun count _ _ => Grammar.Each.repeated h count

theorem TypeSpecSig.grammar_each (h : (SigType.grammar limit).Each fun ty _ => Q ty)
    (blob : List UInt8) : (TypeSpecSig.grammar limit blob).Each fun sig _ => Q sig.type_ :=
  Grammar.Each.map h fun _ _ hty => hty

end Cildec
