import Cildec.Il.Encode

/-!
# Canonical opcodes

A short or macro encoding stands for a general opcode: an index or a constant that its byte
implies, or an operand of one byte, becomes a full operand. `canonicalForm` is that general
instruction; `canonical_reencodes` says that it carries the operand that was decoded, and
decodes to itself.
-/

namespace Cildec

open Wire

/-- The operand is one that an operand kind prescribes. -/
def Operand.OfKind : OperandKind → Operand → Prop
  | .inlineNone, operand => operand = .none
  | .shortInlineI, operand => ∃ v, operand = .i8 v
  | .inlineI, operand => ∃ v, operand = .i32 v
  | .inlineI8, operand => ∃ v, operand = .i64 v
  | .shortInlineR, operand => ∃ bits, operand = .r32 bits
  | .inlineR, operand => ∃ bits, operand = .r64 bits
  | .shortInlineVar, operand => ∃ index, operand = .var index
  | .inlineVar, operand => ∃ index, operand = .var index
  | .shortInlineBrTarget, operand => ∃ target, operand = .branchTarget target
  | .inlineBrTarget, operand => ∃ target, operand = .branchTarget target
  | .inlineSwitch, operand => ∃ targets, operand = .switch targets
  | .inlineMethod, operand => ∃ t, operand = .method t
  | .inlineField, operand => ∃ t, operand = .field t
  | .inlineType, operand => ∃ t, operand = .type t
  | .inlineTok, operand => ∃ t, operand = .tok t
  | .inlineSig, operand => ∃ t, operand = .sig t
  | .inlineString, operand => ∃ t, operand = .string t

/-- The general form of an instruction: the canonical opcode with the same operand, at the
same offset. -/
def Instruction.canonicalForm (i : Instruction) : Instruction where
  offset := i.offset
  size := UInt32.ofNat (i.opcode.canonical.info.size +
    (encOperand 0 i.opcode.canonical.info.operand i.operand).length)
  opcode := i.opcode.canonical
  operand := i.operand

/-! ## The tables -/

namespace OpCode

/-- How the tables of canonical forms, implied operands and operand kinds fit together. -/
theorem canonical_cases (op : OpCode) :
    (op.canonical = op ∧ op.info.operand ≠ .shortInlineBrTarget) ∨
    (op.info.operand = .shortInlineVar ∧ op.canonical.info.operand = .inlineVar) ∨
    (op.info.operand = .shortInlineBrTarget ∧ op.canonical.info.operand = .inlineBrTarget) ∨
    (op = .ldcI4S ∧ op.canonical.info.operand = .inlineI) ∨
    (op.info.operand = .inlineNone ∧ op.impliedVar.isSome ∧
      op.canonical.info.operand = .inlineVar) ∨
    (op.info.operand = .inlineNone ∧ op.impliedVar = none ∧ op.impliedI32.isSome ∧
      op.canonical.info.operand = .inlineI) := by
  have hall : ∀ op ∈ all,
      (op.canonical = op ∧ op.info.operand ≠ .shortInlineBrTarget) ∨
      (op.info.operand = .shortInlineVar ∧ op.canonical.info.operand = .inlineVar) ∨
      (op.info.operand = .shortInlineBrTarget ∧ op.canonical.info.operand = .inlineBrTarget) ∨
      (op = .ldcI4S ∧ op.canonical.info.operand = .inlineI) ∨
      (op.info.operand = .inlineNone ∧ op.impliedVar.isSome ∧
        op.canonical.info.operand = .inlineVar) ∨
      (op.info.operand = .inlineNone ∧ op.impliedVar = none ∧ op.impliedI32.isSome ∧
        op.canonical.info.operand = .inlineI) := by
    decide +kernel
  exact hall op op.mem_all

/-- A canonical opcode neither widens its operand nor implies one. -/
theorem canonical_plain (op : OpCode) :
    op.canonical ≠ .ldcI4S ∧ impliedOperand op.canonical = .none := by
  have hall : ∀ op ∈ all, op.canonical ≠ .ldcI4S ∧ impliedOperand op.canonical = .none := by
    decide +kernel
  exact hall op op.mem_all

/-- The canonical opcode keeps the facts that consumers dispatch on. -/
theorem canonical_facts (op : OpCode) :
    op.canonical.info.flow = op.info.flow ∧ op.canonical.info.pop = op.info.pop ∧
      op.canonical.info.push = op.info.push := by
  have hall : ∀ op ∈ all, op.canonical.info.flow = op.info.flow ∧
      op.canonical.info.pop = op.info.pop ∧ op.canonical.info.push = op.info.push := by
    decide +kernel
  exact hall op op.mem_all

end OpCode

/-! ## The operand of the canonical form -/

/-- Only a short branch depends on where the next instruction starts. -/
theorem OperandFits.of_next {opcode : OpCode} {next next' : UInt32} {operand : Operand}
    {kind : OperandKind} (hkind : kind ≠ .shortInlineBrTarget)
    (h : OperandFits opcode next operand kind) : OperandFits opcode next' operand kind := by
  cases kind
  case shortInlineBrTarget => exact absurd rfl hkind
  all_goals exact h

/-- An operand of an opcode is one of its canonical form, wherever that ends. -/
theorem OperandFits.canonical {op : OpCode} {next next' : UInt32} {operand : Operand}
    (h : OperandFits op next operand op.info.operand) :
    OperandFits op.canonical next' operand op.canonical.info.operand := by
  rcases op.canonical_cases with ⟨hself, hbranch⟩ | ⟨hkind, hwide⟩ | ⟨hkind, hwide⟩ |
    ⟨rfl, hwide⟩ | ⟨hkind, hvar, hwide⟩ | ⟨hkind, hvar, hconstant, hwide⟩
  · rw [hself]
    exact h.of_next hbranch
  · -- an index of one byte is an index
    rw [hkind] at h
    rw [hwide]
    obtain ⟨index, rfl⟩ := h
    exact ⟨_, rfl⟩
  · rw [hkind] at h
    rw [hwide]
    obtain ⟨delta, rfl⟩ := h
    exact ⟨_, rfl⟩
  · rw [hwide]
    obtain ⟨v, rfl⟩ : ∃ v : Int8, operand = .i32 v.toInt32 := h
    exact ⟨_, rfl⟩
  · rw [hkind] at h
    rw [hwide]
    obtain ⟨index, hindex⟩ := Option.isSome_iff_exists.mp hvar
    have himplied : operand = .var index := by
      rw [show operand = impliedOperand op from h, impliedOperand, hindex]
    exact ⟨index, himplied⟩
  · rw [hkind] at h
    rw [hwide]
    obtain ⟨value, hvalue⟩ := Option.isSome_iff_exists.mp hconstant
    have himplied : operand = .i32 value := by
      rw [show operand = impliedOperand op from h, impliedOperand, hvar, hvalue]
    exact ⟨value, himplied⟩

/-- An operand that fits an opcode without a macro form is of the kind of the opcode. -/
theorem OperandFits.ofKind {op : OpCode} {next : UInt32} {operand : Operand} {kind : OperandKind}
    (hwiden : op ≠ .ldcI4S) (hnone : impliedOperand op = .none)
    (h : OperandFits op next operand kind) : operand.OfKind kind := by
  cases kind with
  | inlineNone => exact Eq.trans h hnone
  | shortInlineI =>
      simp only [OperandFits, if_neg hwiden] at h
      exact h
  | shortInlineVar =>
      obtain ⟨index, rfl⟩ := h
      exact ⟨_, rfl⟩
  | shortInlineBrTarget =>
      obtain ⟨delta, rfl⟩ := h
      exact ⟨_, rfl⟩
  | _ => exact h

/-! ## The canonical form decodes to itself -/

/-- The length of an operand does not depend on where the next instruction starts. -/
theorem encOperand_length (next next' : UInt32) (kind : OperandKind) (operand : Operand) :
    (encOperand next kind operand).length = (encOperand next' kind operand).length := by
  cases kind <;> cases operand <;>
    simp only [encOperand, List.length_append, List.length_flatMap, leBytes_length,
      List.length_cons, List.length_nil]

theorem Instruction.canonicalForm_size (i : Instruction) :
    i.canonicalForm.size = UInt32.ofNat i.canonicalForm.enc.length := by
  rw [i.canonicalForm.enc_length, encOperand_length _ 0]
  rfl

/-- Dispatching on the canonical opcode loses nothing: the operand is of its kind, its general
encoding at the same offset decodes to the canonical opcode and the same operand, and the
facts about the flow and the stack are the same. -/
theorem canonical_reencodes {code : List UInt8} {offset : UInt32} {i : Instruction}
    (h : decodeAt code offset = .ok i) :
    i.operand.OfKind i.opcode.canonical.info.operand ∧
    (∀ p s : List UInt8, p.length = offset.toNat →
      decodeAt (p ++ (i.canonicalForm.enc ++ s)) offset = .ok i.canonicalForm) ∧
    i.opcode.canonical.info.flow = i.opcode.info.flow ∧
    i.opcode.canonical.info.pop = i.opcode.info.pop ∧
    i.opcode.canonical.info.push = i.opcode.info.push := by
  obtain ⟨hoffset, _, _, hfits, hcount⟩ := decodeAt_reads h
  obtain ⟨hwiden, hnone⟩ := i.opcode.canonical_plain
  have hgeneral : OperandFits i.opcode.canonical 0 i.operand i.opcode.canonical.info.operand :=
    hfits.canonical
  refine ⟨hgeneral.ofKind hwiden hnone, ?_, i.opcode.canonical_facts⟩
  intro p s hp
  subst hoffset
  exact decodeAt_of_enc (i := i.canonicalForm) hp.symm hfits.canonical i.canonicalForm_size hcount

/-- `ldc.i4.s -1` is `ldc.i4 -1`, in five bytes. -/
theorem canonical_reencodes_constant :
    decodeAt ([] ++ ([0x20, 0xFF, 0xFF, 0xFF, 0xFF] ++ [])) 0 =
      .ok ⟨0, 5, .ldcI4, .i32 (-1)⟩ :=
  have hdecode : decodeAt [0x1F, 0xFF] 0 = .ok ⟨0, 2, .ldcI4S, .i32 (-1)⟩ := by decide
  (canonical_reencodes hdecode).2.1 [] [] rfl

end Cildec
