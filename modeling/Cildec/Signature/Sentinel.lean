import Cildec.Signature.Ruled

/-!
# Where a sentinel stands (`src/signature.rs`)

A `SENTINEL` splits the parameters of a vararg signature, and is an error anywhere else. The
parser steps over one under every calling convention, and refuses it at every other place.

* `type_refuses_sentinel`: no type starts with one;
* `sentinels_admitted_iff`: the sentinels of an accepted blob all belong to vararg signatures
  exactly when the parser that looks at the convention accepts the blob too.
-/

namespace Cildec

open Wire Cildec.Parser

/-- `VARARG`, and the unmanaged `C` and `NATIVEVARARG`. -/
def CallConv.admitsSentinel : CallConv → Bool
  | .varArg | .c | .nativeVarArg => true
  | _ => false

/-- Parameters after a sentinel go with a convention that admits one. -/
def SentinelsAdmitted (methods : List MethodSig) : Prop :=
  ∀ m ∈ methods, m.varargParams ≠ [] → m.callingConvention.admitsSentinel = true

/-- A sentinel only under a convention that admits it. -/
def Rules.sentinels : Rules where
  sentinel := CallConv.admitsSentinel
  void := fun _ _ => true
  repinned := true

theorem Rules.sentinels_obeyed {m : MethodSig} : Rules.sentinels.Obeyed m ↔
    (m.varargParams ≠ [] → m.callingConvention.admitsSentinel = true) := by
  constructor
  · intro h
    exact h.sentinel
  · intro h
    exact ⟨h, fun _ => rfl, fun _ _ _ => rfl, fun _ _ _ => rfl⟩

theorem Rules.sentinels_obeyed_all {methods : List MethodSig} :
    (∀ m ∈ methods, Rules.sentinels.Obeyed m) ↔ SentinelsAdmitted methods :=
  forall₂_congr fun _ _ => Rules.sentinels_obeyed

/-! ## Everywhere else -/

/-- Nothing is read from here. -/
def Parser.Refuses {α : Type} (x : Parse α) (p : Parser) : Prop := ∀ a p', x.run p ≠ .ok a p'

section Elsewhere

variable {p : Parser}

theorem customMods_run_none {b : UInt8} (h : p.rest.head? = some b) (hb : modKind? b = none) :
    customMods.run p = .ok [] p := by
  refine customModsFrom_stop _ ?_
  rw [h]
  exact hb

theorem takeIf_run_other {b code : UInt8} (h : p.rest.head? = some b) (hb : b ≠ code) :
    (takeIf code).run p = .ok false p := by
  obtain ⟨tl, hrest⟩ := List.head?_eq_some_iff.mp h
  rw [takeIf, run_bind_of_ok (peek_run_cons hrest), if_neg hb]
  rfl

theorem typeBody_sentinel (type_ : Parse SigType) (methodSig : Parse MethodSig) (start : Nat) :
    typeBody type_ methodSig start ElementType.sentinel = throw (errAt .malformed start) := rfl

/-- No type starts with a sentinel. -/
theorem type_refuses_sentinel (h : p.rest.head? = some ElementType.sentinel) (n : Nat) :
    Refuses (type_ n) p := by
  intro ty p' hrun
  obtain ⟨b, tl, hrest, hcases⟩ := Rules.type_ok_cases hrun
  rw [hrest, List.head?_cons, Option.some_inj] at h
  subst h
  rcases hcases with ⟨required, mods, inner, hb, _⟩ | ⟨type_, methodSig, start, q, q', hbody⟩
  · cases hb
  · rw [typeBody_sentinel] at hbody
    cases hbody

/-- No parameter and no return type starts with a sentinel. -/
theorem param_refuses_sentinel (h : p.rest.head? = some ElementType.sentinel) (n : Nat) :
    Refuses (param (type_ n)) p := by
  intro a p' hrun
  rw [param, run_bind_of_ok (customMods_run_none h rfl),
    run_bind_of_ok (takeIf_run_other h (by decide))] at hrun
  obtain ⟨ty, q, htype, _⟩ := run_bind_ok_iff.mp hrun
  exact type_refuses_sentinel h n ty q htype

/-- No local starts with a sentinel. -/
theorem localVar_refuses_sentinel (h : p.rest.head? = some ElementType.sentinel) (n : Nat) :
    Refuses (localVar (type_ n)) p := by
  intro a p' hrun
  rw [localVar, run_bind_of_ok (takeIf_run_other h (by decide))] at hrun
  have hplain : (plainLocal (type_ n)).run p = .ok a p' := hrun
  rw [plainLocal, run_bind_of_ok (customMods_run_none h rfl),
    run_bind_of_ok (takeIf_run_other h (by decide))] at hplain
  obtain ⟨more, q, hmore, hrest⟩ := run_bind_ok_iff.mp hplain
  cases hmore
  rw [run_bind_of_ok (takeIf_run_other h (by decide))] at hrest
  obtain ⟨ty, q, htype, _⟩ := run_bind_ok_iff.mp hrest
  exact type_refuses_sentinel h n ty q htype

/-- A signature has one sentinel at most. -/
theorem stepSentinel_refuses_sentinel (h : p.rest.head? = some ElementType.sentinel) :
    Refuses (stepSentinel true) p := by
  intro past p' hrun
  obtain ⟨tl, hrest⟩ := List.head?_eq_some_iff.mp h
  rw [stepSentinel, run_bind_of_ok (peek_run_cons hrest), if_pos rfl, if_pos rfl] at hrun
  cases hrun

end Elsewhere

/-! ## The six signatures -/

/-- The method signatures of an accepted blob, at any depth, have parameters after a sentinel
under a convention that admits one only, exactly when the blob is also accepted where a
sentinel under another convention is refused. At every other place one is refused as it is:
in front of a type, a parameter, a return type or a local, and after another sentinel. -/
theorem sentinels_admitted_iff (options : SignatureOptions) (blob : List UInt8) :
    (∀ m, MethodSig.parseWith blob options = .ok m → (SentinelsAdmitted m.methods ↔
      Rules.Accepted (Rules.sentinels.methodSig true options.limit) blob options)) ∧
    (∀ sig, FieldSig.parseWith blob options = .ok sig → (SentinelsAdmitted sig.methods ↔
      Rules.Accepted (Rules.sentinels.fieldParser options.limit blob) blob options)) ∧
    (∀ sig, LocalVarSig.parseWith blob options = .ok sig → (SentinelsAdmitted sig.methods ↔
      Rules.Accepted (Rules.sentinels.localVarParser options.limit blob) blob options)) ∧
    (∀ sig, PropertySig.parseWith blob options = .ok sig → (SentinelsAdmitted sig.methods ↔
      Rules.Accepted (Rules.sentinels.propertyParser options.limit blob) blob options)) ∧
    (∀ sig, MethodSpecSig.parseWith blob options = .ok sig → (SentinelsAdmitted sig.methods ↔
      Rules.Accepted (Rules.sentinels.methodSpecParser options.limit blob) blob options)) ∧
    (∀ sig, TypeSpecSig.parseWith blob options = .ok sig → (SentinelsAdmitted sig.methods ↔
      Rules.Accepted (Rules.sentinels.typeSpecParser options.limit blob) blob options)) ∧
    ∀ (p : Parser) (n : Nat), p.rest.head? = some ElementType.sentinel →
      Refuses (type_ n) p ∧ Refuses (param (type_ n)) p ∧ Refuses (localVar (type_ n)) p ∧
        Refuses (stepSentinel true) p := by
  simp only [← Rules.sentinels_obeyed_all]
  refine ⟨?_, ?_, ?_, ?_, ?_, ?_, ?_⟩
  · exact fun m h => Rules.methodSig_iff h
  · exact fun sig h => Rules.field_iff h
  · intro sig h
    rw [← Rules.localVar_iff h]
    exact (and_iff_left nofun).symm
  · intro sig h
    rw [← Rules.property_iff h]
    exact (and_iff_left ⟨fun _ => rfl, fun _ _ _ => rfl⟩).symm
  · exact fun sig h => Rules.methodSpec_iff h
  · exact fun sig h => Rules.typeSpec_iff h
  · intro p n h
    exact ⟨type_refuses_sentinel h n, param_refuses_sentinel h n, localVar_refuses_sentinel h n,
      stepSentinel_refuses_sentinel h⟩

/-- `vararg void (..., int)`. -/
def varArgCall : MethodSig where
  raw := [0x05, 0x01, 0x01, 0x41, 0x08]
  callingConvention := .varArg
  hasThis := false
  explicitThis := false
  returnType := ⟨[], false, .void⟩
  params := []
  varargParams := [⟨[], false, .i4⟩]

/-- A vararg call, and a pointer to it in each of the other signatures. -/
theorem sentinels_admitted_varArg :
    SentinelsAdmitted varArgCall.methods ∧
    SentinelsAdmitted (FieldSig.mk [0x06, 0x1B, 0x05, 0x01, 0x01, 0x41, 0x08] []
      (.fnPtr varArgCall)).methods ∧
    SentinelsAdmitted (LocalVarSig.mk [0x07, 0x01, 0x1B, 0x05, 0x01, 0x01, 0x41, 0x08]
      [⟨[], false, false, .fnPtr varArgCall⟩]).methods ∧
    SentinelsAdmitted (PropertySig.mk [0x08, 0x00, 0x1B, 0x05, 0x01, 0x01, 0x41, 0x08] false
      ⟨[], false, .fnPtr varArgCall⟩ []).methods ∧
    SentinelsAdmitted (MethodSpecSig.mk [0x0A, 0x01, 0x1B, 0x05, 0x01, 0x01, 0x41, 0x08]
      [.fnPtr varArgCall]).methods ∧
    SentinelsAdmitted (TypeSpecSig.mk [0x1B, 0x05, 0x01, 0x01, 0x41, 0x08]
      (.fnPtr varArgCall)).methods ∧
    Refuses (type_ 64) (Parser.new [0x41] .default) := by
  have h := sentinels_admitted_iff .default
  refine ⟨?_, ?_, ?_, ?_, ?_, ?_, ?_⟩
  · exact ((h [0x05, 0x01, 0x01, 0x41, 0x08]).1 _ rfl).mpr ⟨_, rfl⟩
  · exact ((h [0x06, 0x1B, 0x05, 0x01, 0x01, 0x41, 0x08]).2.1 _ rfl).mpr ⟨_, rfl⟩
  · exact ((h [0x07, 0x01, 0x1B, 0x05, 0x01, 0x01, 0x41, 0x08]).2.2.1 _ rfl).mpr ⟨_, rfl⟩
  · exact ((h [0x08, 0x00, 0x1B, 0x05, 0x01, 0x01, 0x41, 0x08]).2.2.2.1 _ rfl).mpr ⟨_, rfl⟩
  · exact ((h [0x0A, 0x01, 0x1B, 0x05, 0x01, 0x01, 0x41, 0x08]).2.2.2.2.1 _ rfl).mpr ⟨_, rfl⟩
  · exact ((h [0x1B, 0x05, 0x01, 0x01, 0x41, 0x08]).2.2.2.2.2.1 _ rfl).mpr ⟨_, rfl⟩
  · exact ((h []).2.2.2.2.2.2 (Parser.new [0x41] .default) 64 rfl).1

/-- `void (..., int)` under the default convention: the parser steps over its sentinel. -/
theorem sentinels_not_admitted :
    ¬ ∀ (options : SignatureOptions) (blob : List UInt8) (m : MethodSig),
      MethodSig.parseWith blob options = .ok m → SentinelsAdmitted m.methods := by
  intro h
  let m : MethodSig := ⟨[0x00, 0x01, 0x01, 0x41, 0x08], .default, false, false,
    ⟨[], false, .void⟩, [], [⟨[], false, .i4⟩]⟩
  have hadmitted := h .default [0x00, 0x01, 0x01, 0x41, 0x08] m rfl m (List.mem_cons_self ..)
    (List.cons_ne_nil _ _)
  cases hadmitted

end Cildec
