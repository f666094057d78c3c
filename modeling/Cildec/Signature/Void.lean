import Cildec.Signature.Ruled

/-!
# Where a `VOID` stands (`src/signature.rs`)

`VOID` is a return type only, and never by reference. The parser reads a parameter and a
return type with the same method, which does not know which of the two it is reading.

* `Rules.voids_obeyed`: the rule, for one method signature;
* `voids_returned_iff`: the method signatures of an accepted blob keep to it exactly when the
  parser that looks for a `VOID` in front of each type accepts the blob too.
-/

namespace Cildec

open Wire Cildec.Parser

/-- No parameter is `VOID`, and neither a parameter nor the return type is one by reference. -/
def VoidOnlyReturned (returnType : Param) (params : List Param) : Prop :=
  (∀ param ∈ params, param.type_ ≠ .void) ∧
    ∀ param ∈ returnType :: params, ¬ (param.byRef = true ∧ param.type_ = .void)

/-- This of each method signature and all its parameters, on both sides of a sentinel. -/
def VoidsReturned (methods : List MethodSig) : Prop :=
  ∀ m ∈ methods, VoidOnlyReturned m.returnType (m.params ++ m.varargParams)

/-- A return type may be `VOID`, but not by reference. -/
def Rules.voids : Rules where
  sentinel := fun _ => true
  void := fun isReturn byRef => isReturn && !byRef
  repinned := true

namespace Rules

theorem voidOk_return {param : Param} :
    voids.VoidOk true param ↔ ¬ (param.byRef = true ∧ param.type_ = .void) := by
  show (param.type_ = .void → (!param.byRef) = true) ↔ _
  rw [Bool.not_eq_true']
  constructor
  · rintro h ⟨hbyRef, hvoid⟩
    rw [h hvoid] at hbyRef
    cases hbyRef
  · intro h hvoid
    exact Bool.eq_false_iff.mpr fun hbyRef => h ⟨hbyRef, hvoid⟩

theorem voidOk_param {param : Param} : voids.VoidOk false param ↔ param.type_ ≠ .void := by
  show (param.type_ = .void → false = true) ↔ _
  rw [Bool.false_eq_true]

/-- A parameter that is not `VOID` is not one by reference. -/
theorem voidOnlyReturned_iff {returnType : Param} {params : List Param} :
    VoidOnlyReturned returnType params ↔
      voids.VoidOk true returnType ∧ ∀ param ∈ params, voids.VoidOk false param := by
  rw [VoidOnlyReturned, List.forall_mem_cons, voidOk_return]
  simp only [voidOk_param]
  constructor
  · rintro ⟨hparams, hreturn, _⟩
    exact ⟨hreturn, hparams⟩
  · rintro ⟨hreturn, hparams⟩
    exact ⟨hparams, hreturn, fun param hmem h => hparams param hmem h.2⟩

theorem voids_obeyed {m : MethodSig} :
    voids.Obeyed m ↔ VoidOnlyReturned m.returnType (m.params ++ m.varargParams) := by
  rw [voidOnlyReturned_iff, List.forall_mem_append]
  constructor
  · intro h
    exact ⟨h.returnType, h.params, h.varargParams⟩
  · rintro ⟨hreturn, hparams, hvarargs⟩
    exact ⟨fun _ => rfl, hreturn, hparams, hvarargs⟩

theorem voids_obeyed_all {methods : List MethodSig} :
    (∀ m ∈ methods, voids.Obeyed m) ↔ VoidsReturned methods :=
  forall₂_congr fun _ _ => voids_obeyed

end Rules

/-- The method signatures of an accepted blob, at any depth, and a property signature itself
have no `VOID` but a return type that is not by reference, exactly when the blob is also
accepted where any other one is refused. -/
theorem voids_returned_iff (options : SignatureOptions) (blob : List UInt8) :
    (∀ m, MethodSig.parseWith blob options = .ok m → (VoidsReturned m.methods ↔
      Rules.Accepted (Rules.voids.methodSig true options.limit) blob options)) ∧
    (∀ sig, FieldSig.parseWith blob options = .ok sig → (VoidsReturned sig.methods ↔
      Rules.Accepted (Rules.voids.fieldParser options.limit blob) blob options)) ∧
    (∀ sig, LocalVarSig.parseWith blob options = .ok sig → (VoidsReturned sig.methods ↔
      Rules.Accepted (Rules.voids.localVarParser options.limit blob) blob options)) ∧
    (∀ sig, PropertySig.parseWith blob options = .ok sig →
      (VoidsReturned sig.methods ∧ VoidOnlyReturned sig.returnType sig.params ↔
        Rules.Accepted (Rules.voids.propertyParser options.limit blob) blob options)) ∧
    (∀ sig, MethodSpecSig.parseWith blob options = .ok sig → (VoidsReturned sig.methods ↔
      Rules.Accepted (Rules.voids.methodSpecParser options.limit blob) blob options)) ∧
    ∀ sig, TypeSpecSig.parseWith blob options = .ok sig → (VoidsReturned sig.methods ↔
      Rules.Accepted (Rules.voids.typeSpecParser options.limit blob) blob options) := by
  simp only [← Rules.voids_obeyed_all]
  refine ⟨?_, ?_, ?_, ?_, ?_, ?_⟩
  · exact fun m h => Rules.methodSig_iff h
  · exact fun sig h => Rules.field_iff h
  · intro sig h
    rw [← Rules.localVar_iff h]
    exact (and_iff_left nofun).symm
  · intro sig h
    rw [← Rules.property_iff h, Rules.voidOnlyReturned_iff]
  · exact fun sig h => Rules.methodSpec_iff h
  · exact fun sig h => Rules.typeSpec_iff h

/-- `void ()`, and a pointer to it in each of the other signatures. -/
theorem voids_returned_action :
    VoidsReturned action.methods ∧
    VoidsReturned (FieldSig.mk [0x06, 0x1B, 0x00, 0x00, 0x01] [] (.fnPtr action)).methods ∧
    VoidsReturned (LocalVarSig.mk [0x07, 0x01, 0x1B, 0x00, 0x00, 0x01]
      [⟨[], false, false, .fnPtr action⟩]).methods ∧
    VoidsReturned (PropertySig.mk [0x08, 0x00, 0x1B, 0x00, 0x00, 0x01] false
      ⟨[], false, .fnPtr action⟩ []).methods ∧
    VoidsReturned (MethodSpecSig.mk [0x0A, 0x01, 0x1B, 0x00, 0x00, 0x01]
      [.fnPtr action]).methods ∧
    VoidsReturned (TypeSpecSig.mk [0x1B, 0x00, 0x00, 0x01] (.fnPtr action)).methods := by
  have h := voids_returned_iff .default
  refine ⟨?_, ?_, ?_, ?_, ?_, ?_⟩
  · exact ((h [0x00, 0x00, 0x01]).1 _ rfl).mpr ⟨_, rfl⟩
  · exact ((h [0x06, 0x1B, 0x00, 0x00, 0x01]).2.1 _ rfl).mpr ⟨_, rfl⟩
  · exact ((h [0x07, 0x01, 0x1B, 0x00, 0x00, 0x01]).2.2.1 _ rfl).mpr ⟨_, rfl⟩
  · exact (((h [0x08, 0x00, 0x1B, 0x00, 0x00, 0x01]).2.2.2.1 _ rfl).mpr ⟨_, rfl⟩).1
  · exact ((h [0x0A, 0x01, 0x1B, 0x00, 0x00, 0x01]).2.2.2.2.1 _ rfl).mpr ⟨_, rfl⟩
  · exact ((h [0x1B, 0x00, 0x00, 0x01]).2.2.2.2.2 _ rfl).mpr ⟨_, rfl⟩

/-- `void (void)`, and a method that returns `void` by reference. -/
theorem voids_not_returned :
    (¬ ∀ (options : SignatureOptions) (blob : List UInt8) (m : MethodSig),
      MethodSig.parseWith blob options = .ok m → ∀ param ∈ m.params, param.type_ ≠ .void) ∧
    ¬ ∀ (options : SignatureOptions) (blob : List UInt8) (m : MethodSig),
      MethodSig.parseWith blob options = .ok m →
        ¬ (m.returnType.byRef = true ∧ m.returnType.type_ = .void) := by
  refine ⟨?_, ?_⟩
  · intro h
    let m : MethodSig := ⟨[0x00, 0x01, 0x01, 0x01], .default, false, false,
      ⟨[], false, .void⟩, [⟨[], false, .void⟩], []⟩
    exact h .default [0x00, 0x01, 0x01, 0x01] m rfl ⟨[], false, .void⟩ (List.mem_cons_self ..) rfl
  · intro h
    let m : MethodSig := ⟨[0x00, 0x00, 0x10, 0x01], .default, false, false,
      ⟨[], true, .void⟩, [], []⟩
    exact h .default [0x00, 0x00, 0x10, 0x01] m rfl ⟨rfl, rfl⟩

end Cildec
