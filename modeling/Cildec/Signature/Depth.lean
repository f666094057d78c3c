import Cildec.Signature.RoundTrip
import Cildec.Signature.Values

/-!
# How deep a parsed signature nests

The recursion limit bounds the value that a parser returns, not only its stack: a type is at
most as deep as the levels that were left (`typeGrammar_depth`).
-/

namespace Cildec

open Wire Cildec.Parser

theorem SigType.depth_primitive {byte : UInt8} {ty : SigType}
    (h : SigType.primitive? byte = some ty) : ty.depth = 1 := by
  unfold SigType.primitive? at h
  split at h <;> first | (cases h; rfl) | cases h

variable {limit : Nat}

/-- A constructor is one level, whatever number of types it takes. -/
theorem depth_inherits (n : Nat) (seen : Bool) :
    Inherits seen (fun ty => ty.depth ≤ n) (fun ty => ty.depth ≤ n) (fun m => m.depth ≤ n)
      (fun ty => ty.depth ≤ n + 1) where
  primitive h := by
    rw [SigType.depth_primitive h]
    exact Nat.le_add_left 1 n
  valueType _ := Nat.le_add_left 1 n
  class_ _ := Nat.le_add_left 1 n
  var _ := Nat.le_add_left 1 n
  mvar _ := Nat.le_add_left 1 n
  modified _ _ h := Nat.succ_le_succ h
  ptr _ _ h := Nat.succ_le_succ h
  byRef _ h := Nat.succ_le_succ h
  szArray _ _ h := Nat.succ_le_succ h
  array _ _ h := Nat.succ_le_succ h
  genericInst _ _ _ h := Nat.succ_le_succ (SigType.depthAll_le.mpr h)
  fnPtr _ h := Nat.succ_le_succ h
  pinned _ _ h := Nat.succ_le_succ h

theorem Param.depth_eq (param : Param) : param.depth = param.type_.depth := by
  cases param
  rfl

theorem depth_method (n : Nat) :
    MethodInherits (fun ty => ty.depth ≤ n) (fun m => m.depth ≤ n + 1) := by
  rintro ⟨raw, convention, hasThis, explicitThis, returnType, params, varargParams⟩ hret hps hvs
  simp only [← Param.depth_eq] at hret hps hvs
  have hparams := Param.depthAll_le.mpr hps
  have hvarargs := Param.depthAll_le.mpr hvs
  rw [MethodSig.depth]
  omega

/-- With `n` levels left, what is read nests at most `n` deep. -/
theorem typeGrammar_depth (limit : Nat) : ∀ n seen,
    ((typeGrammar limit n seen).Each fun ty _ => ty.depth ≤ n) ∧
      (methodGrammar limit n seen).Each fun sig _ => sig.depth ≤ n :=
  typeGrammar_each limit (T := fun n _ ty => ty.depth ≤ n) (M := fun n _ m => m.depth ≤ n)
    depth_inherits fun n _ => depth_method n

/-! ## The signatures -/

theorem SigType.grammar_depth (limit : Nat) :
    (SigType.grammar limit).Each fun ty _ => ty.depth ≤ limit :=
  (typeGrammar_depth limit limit false).1

theorem PropertySig.grammar_depth (limit : Nat) (blob : List UInt8) :
    (PropertySig.grammar limit blob).Each fun sig _ =>
      sig.returnType.depth ≤ limit ∧ ∀ param ∈ sig.params, param.depth ≤ limit := by
  simp only [Param.depth_eq]
  exact PropertySig.grammar_each (SigType.grammar_depth limit) blob

theorem TypeSpecSig.parse_depth {blob : List UInt8} {options : SignatureOptions}
    {sig : TypeSpecSig} (h : TypeSpecSig.parseWith blob options = .ok sig) :
    sig.type_.depth ≤ options.limit := by
  obtain ⟨p, hrun⟩ := Parser.finish_ok_iff.mp h
  obtain ⟨ms, hR⟩ := Parser.spelled_of_run (TypeSpecSig.accepts options.limit blob) hrun
  exact TypeSpecSig.grammar_each (SigType.grammar_depth _) blob sig _ ms hR

theorem MethodSpecSig.parse_depth {blob : List UInt8} {options : SignatureOptions}
    {sig : MethodSpecSig} (h : MethodSpecSig.parseWith blob options = .ok sig) :
    ∀ ty ∈ sig.args, ty.depth ≤ options.limit := by
  obtain ⟨p, hrun⟩ := Parser.finish_ok_iff.mp h
  obtain ⟨ms, hR⟩ := Parser.spelled_of_run (MethodSpecSig.accepts options.limit blob) hrun
  exact MethodSpecSig.grammar_each (SigType.grammar_depth _) blob sig _ ms hR

end Cildec
