import Cildec.Signature.Ruled
import Cildec.Signature.Values

/-!
# Nested pins (`src/signature.rs`)

A `PINNED` inside another one is an error. The parser of a type raises a flag while it reads
below one. The parser of a local steps over a `PINNED` of its own without raising the flag, and
only looks at the outermost constructor of the type that follows.

* `typeGrammar_pinned`: with the flag up no `PINNED` is read, and none is below another one;
* `pinned_once_iff`: a pinned local holds no other `PINNED` exactly when the parser that
  refuses one there accepts the blob too.
-/

namespace Cildec

open Wire Cildec.Parser

/-- No `PINNED` at all where one was `seen`, and none below another one. -/
def PinnedOnce (seen : Bool) (pinnings : List SigType) : Prop :=
  (seen = true → pinnings = []) ∧ ∀ inner ∈ pinnings, inner.pinnings = []

/-! ## Inside a type -/

section Types

variable {seen : Bool} {limit : Nat}

theorem pinnedOnce_nil : PinnedOnce seen [] :=
  ⟨fun _ => rfl, fun _ hmem => absurd hmem List.not_mem_nil⟩

theorem pinnedOnce_append {xs ys : List SigType} :
    PinnedOnce seen (xs ++ ys) ↔ PinnedOnce seen xs ∧ PinnedOnce seen ys := by
  simp only [PinnedOnce, List.append_eq_nil_iff, List.forall_mem_append]
  constructor
  · rintro ⟨hseen, hxs, hys⟩
    exact ⟨⟨fun h => (hseen h).1, hxs⟩, fun h => (hseen h).2, hys⟩
  · rintro ⟨⟨hxseen, hxs⟩, hyseen, hys⟩
    exact ⟨fun h => ⟨hxseen h, hyseen h⟩, hxs, hys⟩

theorem pinnedOnce_flatMap {α : Type} {f : α → List SigType} {as : List α}
    (h : ∀ a ∈ as, PinnedOnce seen (f a)) : PinnedOnce seen (as.flatMap f) := by
  induction as with
  | nil => exact pinnedOnce_nil
  | cons a as ih =>
      obtain ⟨ha, has⟩ := List.forall_mem_cons.mp h
      rw [List.flatMap_cons]
      exact pinnedOnce_append.mpr ⟨ha, ih has⟩

/-- Only a `PINNED` adds one, and the flag is up below it. -/
theorem pinned_inherits (seen : Bool) :
    Inherits seen (fun ty => PinnedOnce seen ty.pinnings) (fun ty => PinnedOnce true ty.pinnings)
      (fun m => PinnedOnce seen m.pinnings) (fun ty => PinnedOnce seen ty.pinnings) where
  primitive h := by
    rw [SigType.pinnings_primitive h]
    exact pinnedOnce_nil
  valueType _ := pinnedOnce_nil
  class_ _ := pinnedOnce_nil
  var _ := pinnedOnce_nil
  mvar _ := pinnedOnce_nil
  modified _ _ h := h
  ptr _ _ h := h
  byRef _ h := h
  szArray _ _ h := h
  array _ _ h := h
  genericInst _ _ args h := by
    show PinnedOnce seen (SigType.pinningsAll args)
    rw [SigType.pinningsAll_eq]
    exact pinnedOnce_flatMap h
  fnPtr _ h := h
  pinned hseen inner h := by
    have hnone : inner.pinnings = [] := h.1 rfl
    show PinnedOnce seen (inner :: inner.pinnings)
    rw [hnone]
    refine ⟨fun htrue => ?_, List.forall_mem_singleton.mpr hnone⟩
    rw [hseen] at htrue
    cases htrue

theorem pinned_method (seen : Bool) :
    MethodInherits (fun ty => PinnedOnce seen ty.pinnings) (fun m => PinnedOnce seen m.pinnings) := by
  intro m hreturn hparams hvarargs
  simp only [← Param.pinnings_type] at hreturn hparams hvarargs
  show PinnedOnce seen m.pinnings
  rw [m.pinnings_eq]
  exact pinnedOnce_append.mpr ⟨hreturn,
    pinnedOnce_append.mpr ⟨pinnedOnce_flatMap hparams, pinnedOnce_flatMap hvarargs⟩⟩

/-- With the flag up no `PINNED` is read, and none is below another one. -/
theorem typeGrammar_pinned (limit : Nat) : ∀ n seen,
    ((typeGrammar limit n seen).Each fun ty _ => PinnedOnce seen ty.pinnings) ∧
      (methodGrammar limit n seen).Each fun m _ => PinnedOnce seen m.pinnings :=
  typeGrammar_each limit (T := fun _ seen ty => PinnedOnce seen ty.pinnings)
    (M := fun _ seen m => PinnedOnce seen m.pinnings)
    (fun _ seen => pinned_inherits seen) fun _ seen => pinned_method seen

theorem SigType.grammar_pinned (limit : Nat) :
    (SigType.grammar limit).Each fun ty _ => ∀ inner ∈ ty.pinnings, inner.pinnings = [] :=
  (typeGrammar_pinned limit limit false).1.mono fun _ _ h => h.2

end Types

/-! ## The six signatures -/

def FieldSig.pinnings (sig : FieldSig) : List SigType := sig.type_.pinnings

def LocalVarSig.pinnings (sig : LocalVarSig) : List SigType :=
  sig.locals.flatMap fun l => l.type_.pinnings

def PropertySig.pinnings (sig : PropertySig) : List SigType :=
  sig.returnType.pinnings ++ sig.params.flatMap Param.pinnings

def MethodSpecSig.pinnings (sig : MethodSpecSig) : List SigType :=
  sig.args.flatMap SigType.pinnings

def TypeSpecSig.pinnings (sig : TypeSpecSig) : List SigType := sig.type_.pinnings

/-- Nothing pinned holds a `PINNED`. -/
def NoneNested (pinnings : List SigType) : Prop := ∀ inner ∈ pinnings, inner.pinnings = []

/-- No `PINNED` in the type of a pinned local. -/
def Rules.pins : Rules where
  sentinel := fun _ => true
  void := fun _ _ => true
  repinned := false

theorem Rules.pins_obeyed (m : MethodSig) : Rules.pins.Obeyed m :=
  ⟨fun _ => rfl, fun _ => rfl, fun _ _ _ => rfl, fun _ _ _ => rfl⟩

/-- What a grammar's values all have, a parsed signature has. -/
theorem Parser.parsed_each {α : Type} {options : SignatureOptions} {x : Parse α} {R : Grammar α}
    {Q : α → Prop} (h : Accepts (At options.limit 0 false) x R) (hR : R.Each fun a _ => Q a)
    {blob : List UInt8} {a : α} (hparse : finish (x.run (Parser.new blob options)) = .ok a) :
    Q a := by
  obtain ⟨p, hrun⟩ := Parser.finish_ok_iff.mp hparse
  obtain ⟨ms, ha⟩ := Parser.spelled_of_run h hrun
  exact hR a _ ms ha

/-- No `PINNED` is below another one in an accepted blob. A pinned local has no other `PINNED`
in its type exactly when the blob is also accepted where one is refused there. -/
theorem pinned_once_iff (options : SignatureOptions) (blob : List UInt8) :
    (∀ m, MethodSig.parseWith blob options = .ok m → NoneNested m.pinnings) ∧
    (∀ sig, FieldSig.parseWith blob options = .ok sig → NoneNested sig.pinnings) ∧
    (∀ sig, LocalVarSig.parseWith blob options = .ok sig → NoneNested sig.pinnings ∧
      ((∀ l ∈ sig.locals, l.pinned = true → l.type_.pinnings = []) ↔
        Rules.Accepted (Rules.pins.localVarParser options.limit blob) blob options)) ∧
    (∀ sig, PropertySig.parseWith blob options = .ok sig → NoneNested sig.pinnings) ∧
    (∀ sig, MethodSpecSig.parseWith blob options = .ok sig → NoneNested sig.pinnings) ∧
    ∀ sig, TypeSpecSig.parseWith blob options = .ok sig → NoneNested sig.pinnings := by
  have htype := SigType.grammar_pinned options.limit
  refine ⟨?_, ?_, ?_, ?_, ?_, ?_⟩
  · intro m h
    have hmethod := (typeGrammar_pinned options.limit options.limit false).2
    exact (Parser.parsed_each (MethodSig.accepts options.limit) hmethod h).2
  · intro sig h
    exact Parser.parsed_each (FieldSig.accepts options.limit blob)
      (FieldSig.grammar_each htype blob) h
  · intro sig h
    have hlocals := Parser.parsed_each (LocalVarSig.accepts options.limit blob)
      (LocalVarSig.grammar_each htype blob) h
    refine ⟨?_, ?_⟩
    · refine List.forall_mem_flatMap.mpr fun l hl => ?_
      rcases hlocals l hl with hty | rfl
      · exact hty
      · exact fun _ hmem => absurd hmem List.not_mem_nil
    · rw [← Rules.localVar_iff h]
      constructor
      · exact fun hpins => ⟨fun m _ => Rules.pins_obeyed m, fun _ => hpins⟩
      · exact fun hall => hall.2 rfl
  · intro sig h
    obtain ⟨hreturn, hparams⟩ := Parser.parsed_each (PropertySig.accepts options.limit blob)
      (PropertySig.grammar_each htype blob) h
    simp only [← Param.pinnings_type] at hreturn hparams
    exact List.forall_mem_append.mpr ⟨hreturn, List.forall_mem_flatMap.mpr hparams⟩
  · intro sig h
    exact List.forall_mem_flatMap.mpr (Parser.parsed_each
      (MethodSpecSig.accepts options.limit blob) (MethodSpecSig.grammar_each htype blob) h)
  · intro sig h
    exact Parser.parsed_each (TypeSpecSig.accepts options.limit blob)
      (TypeSpecSig.grammar_each htype blob) h

/-- A pinned local of type `int&`, and one `PINNED` in each of the other signatures. -/
theorem pinned_once_local :
    NoneNested (MethodSig.pinnings ⟨[0x00, 0x00, 0x45, 0x08], .default, false, false,
      ⟨[], false, .pinned .i4⟩, [], []⟩) ∧
    NoneNested (FieldSig.mk [0x06, 0x45, 0x08] [] (.pinned .i4)).pinnings ∧
    (∀ l ∈ (LocalVarSig.mk [0x07, 0x01, 0x45, 0x10, 0x08] [⟨[], true, true, .i4⟩]).locals,
      l.pinned = true → l.type_.pinnings = []) ∧
    NoneNested (PropertySig.mk [0x08, 0x00, 0x45, 0x08] false ⟨[], false, .pinned .i4⟩ []).pinnings ∧
    NoneNested (MethodSpecSig.mk [0x0A, 0x01, 0x45, 0x08] [.pinned .i4]).pinnings ∧
    NoneNested (TypeSpecSig.mk [0x45, 0x08] (.pinned .i4)).pinnings := by
  have h := pinned_once_iff .default
  refine ⟨?_, ?_, ?_, ?_, ?_, ?_⟩
  · exact (h [0x00, 0x00, 0x45, 0x08]).1 _ rfl
  · exact (h [0x06, 0x45, 0x08]).2.1 _ rfl
  · exact (((h [0x07, 0x01, 0x45, 0x10, 0x08]).2.2.1 _ rfl).2).mpr ⟨_, rfl⟩
  · exact (h [0x08, 0x00, 0x45, 0x08]).2.2.2.1 _ rfl
  · exact (h [0x0A, 0x01, 0x45, 0x08]).2.2.2.2.1 _ rfl
  · exact (h [0x45, 0x08]).2.2.2.2.2 _ rfl

/-- A pinned local whose type is a pointer to a pinned one. -/
theorem pinned_twice :
    ¬ ∀ (options : SignatureOptions) (blob : List UInt8) (sig : LocalVarSig),
      LocalVarSig.parseWith blob options = .ok sig →
        ∀ l ∈ sig.locals, l.pinned = true → l.type_.pinnings = [] := by
  intro h
  let l : LocalVar := ⟨[], true, false, .ptr [] (.pinned .i4)⟩
  have hnone := h .default [0x07, 0x01, 0x45, 0x0F, 0x45, 0x08]
    ⟨[0x07, 0x01, 0x45, 0x0F, 0x45, 0x08], [l]⟩ rfl l (List.mem_cons_self ..) rfl
  cases hnone

end Cildec
