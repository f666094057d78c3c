import Cildec.Signature.Entry

/-!
# What is inside a signature

A `Collector` lists the parts of one kind of a type, a parameter and a method signature, at
any depth. Whatever every array shape and every method signature contributes is then found
in the bytes of every signature (`Sound.finds` and the six lemmas after it).
-/

namespace Cildec

open Wire Cildec.Parser
open Grammar (Finds FoundIn)

/-- How the parts of one kind are listed. -/
structure Collector (ι : Type) where
  type_ : SigType → List ι
  param : Param → List ι
  method : MethodSig → List ι
  shape : ArrayShape → List ι
  own : MethodSig → List ι

namespace Collector

variable {ι : Type} {P : ι → List UInt8 → Prop} {limit : Nat}
  {T : Bool → Grammar SigType} {M : Bool → Grammar MethodSig} {c : Collector ι}

/-- The parts are those of the components: an array adds those of its shape, a method
signature its own. -/
structure Lawful (c : Collector ι) : Prop where
  modified : ∀ mods ty, c.type_ (.modified mods ty) = c.type_ ty
  ptr : ∀ mods ty, c.type_ (.ptr mods ty) = c.type_ ty
  byRef : ∀ ty, c.type_ (.byRef ty) = c.type_ ty
  szArray : ∀ mods ty, c.type_ (.szArray mods ty) = c.type_ ty
  pinned : ∀ ty, c.type_ (.pinned ty) = c.type_ ty
  array : ∀ ty s, c.type_ (.array ty s) = c.type_ ty ++ c.shape s
  genericInst : ∀ v d args, c.type_ (.genericInst v d args) = args.flatMap c.type_
  fnPtr : ∀ m, c.type_ (.fnPtr m) = c.method m
  primitive : ∀ {byte ty}, SigType.primitive? byte = some ty → c.type_ ty = []
  valueType : ∀ token, c.type_ (.valueType token) = []
  class_ : ∀ token, c.type_ (.class_ token) = []
  var : ∀ n, c.type_ (.var n) = []
  mvar : ∀ n, c.type_ (.mvar n) = []
  param : ∀ mods byRef ty, c.param ⟨mods, byRef, ty⟩ = c.type_ ty
  method : ∀ m, c.method m = c.own m ++ (c.param m.returnType ++
    (m.params.flatMap c.param ++ m.varargParams.flatMap c.param))

/-- What every array shape and every method signature contributes is found in its bytes. -/
structure Sound (c : Collector ι) (P : ι → List UInt8 → Prop) (limit : Nat) : Prop where
  lawful : c.Lawful
  shape : Finds P arrayShapeGrammar c.shape
  own : ∀ n ≤ limit, ∀ seen, Finds P (methodGrammar limit n seen) c.own

/-! ## Types -/

theorem finds_body (hc : c.Lawful) (hshape : Finds P arrayShapeGrammar c.shape)
    (hT : ∀ seen, Finds P (T seen) c.type_) (hM : ∀ seen, Finds P (M seen) c.method) (seen : Bool)
    (byte : UInt8) :
    Finds P (bodyGrammar limit T M seen byte) c.type_ := by
  have hleaf : ∀ {α : Type} {R : Grammar α} {f : α → SigType}, (∀ a, c.type_ (f a) = []) →
      Finds P (R.map f) c.type_ :=
    fun h => Finds.map (Finds.nil _ (fun _ => []) fun _ => rfl) h
  have hmods : ∀ f : List CustomMod → SigType → SigType,
      (∀ mods ty, c.type_ (f mods ty) = c.type_ ty) →
      Finds P (modsThen limit fun mods => (T seen).map (f mods)) c.type_ :=
    fun f hf => Finds.ahead fun mods => (hT seen).map (hf mods)
  unfold bodyGrammar
  cases hprimitive : SigType.primitive? byte with
  | some primitive =>
      refine Grammar.Each.pure ?_
      rw [hc.primitive hprimitive]
      exact Grammar.foundIn_nil []
  | none =>
      refine Grammar.Each.ite (hmods _ hc.ptr) ?_
      refine Grammar.Each.ite ((hT seen).map hc.byRef) ?_
      refine Grammar.Each.ite (hleaf hc.valueType) ?_
      refine Grammar.Each.ite (hleaf hc.class_) ?_
      refine Grammar.Each.ite (hleaf hc.var) ?_
      refine Grammar.Each.ite (hleaf hc.mvar) ?_
      refine Grammar.Each.ite (hmods _ hc.szArray) ?_
      refine Grammar.Each.ite ?_ ?_
      · refine Grammar.Each.bind (hT seen) fun element cs helement => ?_
        refine Grammar.Each.map hshape fun s ds hs => ?_
        rw [hc.array]
        exact Grammar.foundIn_append.mpr ⟨helement.left ds, hs.right cs⟩
      refine Grammar.Each.ite ?_ ?_
      · refine Finds.after fun isValueType => Finds.after fun definition => ?_
        have hargs : Finds P (countedGrammar (T seen)) fun args => args.flatMap c.type_ :=
          Finds.after fun n => (hT seen).repeated n
        exact hargs.map (hc.genericInst isValueType definition)
      refine Grammar.Each.ite ((hM seen).map hc.fnPtr) ?_
      exact Grammar.Each.ite (Grammar.Each.guard ((hT true).map hc.pinned)) (Grammar.Each.none _)

theorem finds_typeInner (hc : c.Lawful) (hshape : Finds P arrayShapeGrammar c.shape)
    (hT : ∀ seen, Finds P (T seen) c.type_) (hM : ∀ seen, Finds P (M seen) c.method)
    (seen : Bool) : Finds P (typeInnerGrammar limit T M seen) c.type_ :=
  Finds.ahead fun leading => Grammar.Each.ite
    (Finds.after fun byte => finds_body hc hshape hT hM seen byte)
    ((hT seen).map (hc.modified leading))

/-! ## Parameters and method signatures -/

theorem finds_param (hc : c.Lawful) {R : Grammar SigType} (h : Finds P R c.type_) :
    Finds P (paramGrammar limit R) c.param :=
  Finds.ahead fun mods => Finds.ahead fun byRef => h.map (hc.param mods byRef)

theorem finds_methodParams {R : Grammar Param} (h : Finds P R c.param) :
    ∀ n past, Finds P (methodParamsGrammar R n past)
      fun lists => lists.1.flatMap c.param ++ lists.2.flatMap c.param
  | 0, _ => Grammar.Each.pure (Grammar.foundIn_nil [])
  | n + 1, _ => Finds.ahead fun past => Grammar.Each.bind h fun first cs hfirst => by
      refine Grammar.Each.map (finds_methodParams h n past) fun others ds hothers => ?_
      obtain ⟨hbefore, hafter⟩ := Grammar.foundIn_append.mp (hothers.right cs)
      have hfirst' := hfirst.left ds
      cases past with
      | false =>
          exact Grammar.foundIn_append.mpr ⟨Grammar.foundIn_append.mpr ⟨hfirst', hbefore⟩, hafter⟩
      | true =>
          exact Grammar.foundIn_append.mpr ⟨hbefore, Grammar.foundIn_append.mpr ⟨hfirst', hafter⟩⟩

theorem finds_methodParts {R : Grammar Param} (h : Finds P R c.param) :
    Finds P (methodPartsGrammar R) fun m =>
      c.param m.returnType ++ (m.params.flatMap c.param ++ m.varargParams.flatMap c.param) := by
  refine Finds.after fun header => Finds.after fun count => ?_
  refine Grammar.Each.bind h fun returnType cs hreturn => ?_
  refine Grammar.Each.map (finds_methodParams h count false) fun lists ds hlists => ?_
  exact Grammar.foundIn_append.mpr ⟨hreturn.left ds, hlists.right cs⟩

/-- Within the limit the parts of every type and every method signature are found in its
bytes, by induction on the levels that are left. -/
theorem Sound.finds (h : c.Sound P limit) : ∀ n, n ≤ limit → ∀ seen,
    Finds P (typeGrammar limit n seen) c.type_ ∧ Finds P (methodGrammar limit n seen) c.method := by
  intro n
  induction n with
  | zero =>
      intro _ seen
      rw [typeGrammar, methodGrammar]
      exact ⟨Grammar.Each.none _, Grammar.Each.none _⟩
  | succ n ih =>
      intro hn seen
      have hinner := ih (Nat.le_of_succ_le hn)
      refine ⟨?_, ?_⟩
      · rw [typeGrammar]
        exact finds_typeInner h.lawful h.shape (fun s => (hinner s).1) (fun s => (hinner s).2) seen
      · intro m bs ms hm
        have hown := h.own (n + 1) hn seen m bs ms hm
        rw [methodGrammar] at hm
        obtain ⟨parts, rfl, hparts⟩ := hm
        have hinside := finds_methodParts (finds_param h.lawful (hinner seen).1) parts bs ms hparts
        rw [h.lawful.method]
        exact Grammar.foundIn_append.mpr ⟨hown, hinside⟩

/-! ## The six signatures -/

theorem Sound.finds_type (h : c.Sound P limit) : Finds P (SigType.grammar limit) c.type_ :=
  (h.finds limit (Nat.le_refl _) false).1

theorem Sound.finds_method (h : c.Sound P limit) : Finds P (MethodSig.grammar limit) c.method :=
  (h.finds limit (Nat.le_refl _) false).2

theorem Sound.finds_field (h : c.Sound P limit) (blob : List UInt8) :
    Finds P (FieldSig.grammar limit blob) fun sig => c.type_ sig.type_ :=
  Finds.after fun _ => Finds.ahead fun _ => h.finds_type.map fun _ => rfl

theorem finds_local {R : Grammar SigType} (h : Finds P R c.type_)
    (hbare : c.type_ .typedByRef = []) :
    Finds P (localGrammar limit R) fun l => c.type_ l.type_ := by
  refine Finds.ahead fun bare => Grammar.Each.ite (Grammar.Each.pure ?_) ?_
  · show FoundIn P (c.type_ .typedByRef) []
    rw [hbare]
    exact Grammar.foundIn_nil []
  refine Finds.ahead fun mods => Finds.ahead fun pinned => ?_
  refine Finds.ahead fun more => Finds.ahead fun byRef => ?_
  refine Grammar.Each.bind h fun ty cs hty => Grammar.Each.guard (Grammar.Each.pure ?_)
  exact hty.left []

theorem Sound.finds_locals (h : c.Sound P limit) (blob : List UInt8) :
    Finds P (LocalVarSig.grammar limit blob) fun sig => sig.locals.flatMap fun l => c.type_ l.type_ := by
  have hbare : c.type_ .typedByRef = [] := h.lawful.primitive (show SigType.primitive? 0x16 = _ from rfl)
  have hlocals : Finds P (countedGrammar (localGrammar limit (SigType.grammar limit)))
      fun locals => locals.flatMap fun l => c.type_ l.type_ :=
    Finds.after fun n => (finds_local h.finds_type hbare).repeated n
  exact Finds.after fun _ => hlocals.map fun _ => rfl

theorem Sound.finds_property (h : c.Sound P limit) (blob : List UInt8) :
    Finds P (PropertySig.grammar limit blob)
      fun sig => c.param sig.returnType ++ sig.params.flatMap c.param := by
  have hparam : Finds P (Param.grammar limit) c.param :=
    finds_param h.lawful h.finds_type
  refine Finds.after fun byte => Finds.after fun count => ?_
  refine Grammar.Each.bind hparam fun returnType cs hreturn => ?_
  refine Grammar.Each.map (hparam.repeated count) fun params ds hparams => ?_
  exact Grammar.foundIn_append.mpr ⟨hreturn.left ds, hparams.right cs⟩

theorem Sound.finds_methodSpec (h : c.Sound P limit) (blob : List UInt8) :
    Finds P (MethodSpecSig.grammar limit blob) fun sig => sig.args.flatMap c.type_ := by
  have hargs : Finds P (countedGrammar (SigType.grammar limit)) fun args => args.flatMap c.type_ :=
    Finds.after fun n => h.finds_type.repeated n
  exact Finds.after fun _ => hargs.map fun _ => rfl

theorem Sound.finds_typeSpec (h : c.Sound P limit) (blob : List UInt8) :
    Finds P (TypeSpecSig.grammar limit blob) fun sig => c.type_ sig.type_ :=
  h.finds_type.map fun _ => rfl

end Collector

end Cildec
