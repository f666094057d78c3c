import Cildec.Il.Blocks

/-!
# The shape of decoded instructions (`src/il/mod.rs`)

The table records the kind of operand of each opcode, and how it affects control flow; callers
size instructions, look for tokens and follow branches by these facts alone.

* `Instruction.Conforms`: an instruction has the shape its table row says;
* `run_conforms`: every instruction of a run does.
-/

namespace Cildec

open Wire

/-- The fixed operand size in bytes, or nothing for a `switch`. -/
def OperandKind.fixedSize : OperandKind → Option Nat
  | .inlineNone => some 0
  | .shortInlineI | .shortInlineBrTarget | .shortInlineVar => some 1
  | .inlineVar => some 2
  | .inlineI | .shortInlineR | .inlineBrTarget | .inlineMethod | .inlineField | .inlineType
  | .inlineTok | .inlineString | .inlineSig => some 4
  | .inlineI8 | .inlineR => some 8
  | .inlineSwitch => none

/-- The operand is a metadata token. -/
def OperandKind.isToken : OperandKind → Bool
  | .inlineMethod | .inlineField | .inlineType | .inlineTok | .inlineString | .inlineSig => true
  | _ => false

/-- A transfer that names where it goes. -/
def FlowControl.isBranch : FlowControl → Bool
  | .branch | .condBranch => true
  | _ => false

/-- The operand holds branch targets; a `switch` may hold none. -/
def Operand.isTarget : Operand → Bool
  | .branchTarget _ | .switch _ => true
  | _ => false

def Operand.isString : Operand → Bool
  | .string _ => true
  | _ => false

/-- The instruction has the shape that the table records of its opcode. -/
structure Instruction.Conforms (i : Instruction) : Prop where
  size_eq : i.size.toNat = i.opcode.info.size +
    i.opcode.info.operand.fixedSize.getD (4 + 4 * i.operand.branchTargets.length)
  token_iff : (i.operand.token.isSome || i.operand.isString) = i.opcode.info.operand.isToken
  target_iff : i.operand.isTarget = i.opcode.info.flow.isBranch

/-- The opcodes that branch are those with an operand of targets. -/
theorem isBranch_iff (opcode : OpCode) : opcode.info.flow.isBranch = true ↔
    opcode.info.operand = .shortInlineBrTarget ∨ opcode.info.operand = .inlineBrTarget ∨
      opcode.info.operand = .inlineSwitch := by
  have hall : ∀ op ∈ OpCode.all, op.info.flow.isBranch = true ↔
      op.info.operand = .shortInlineBrTarget ∨ op.info.operand = .inlineBrTarget ∨
        op.info.operand = .inlineSwitch := by
    decide +kernel
  exact hall opcode opcode.mem_all

/-- What an opcode implies is neither a token nor a target. -/
theorem impliedOperand_shape (opcode : OpCode) :
    (impliedOperand opcode).token = none ∧ (impliedOperand opcode).isString = false ∧
      (impliedOperand opcode).isTarget = false := by
  unfold impliedOperand
  split <;> exact ⟨rfl, rfl, rfl⟩

/-- An operand that fits its kind takes the bytes of the kind, and is of its sort. -/
theorem shape_of_fits {opcode : OpCode} {next : UInt32} {operand : Operand} {kind : OperandKind}
    (h : OperandFits opcode next operand kind) :
    (encOperand next kind operand).length =
        kind.fixedSize.getD (4 + 4 * operand.branchTargets.length) ∧
      (operand.token.isSome || operand.isString) = kind.isToken ∧
      (operand.isTarget = true ↔ kind = .shortInlineBrTarget ∨ kind = .inlineBrTarget ∨
        kind = .inlineSwitch) := by
  cases kind with
  | inlineNone =>
      obtain rfl : operand = impliedOperand opcode := h
      obtain ⟨htoken, hstring, htarget⟩ := impliedOperand_shape opcode
      simp [encOperand, htoken, hstring, htarget, OperandKind.fixedSize, OperandKind.isToken]
  | shortInlineI =>
      simp only [OperandFits] at h
      split at h <;> (obtain ⟨v, rfl⟩ := h; simp [encOperand, OperandKind.fixedSize,
        OperandKind.isToken, Operand.token, Operand.isString, Operand.isTarget])
  | inlineSwitch =>
      obtain ⟨targets, rfl⟩ := h
      have hlen : (targets.flatMap fun target => leBytes 4 (target - next).toNat).length =
          targets.length * 4 := length_flatMap_const fun _ _ => leBytes_length 4 _
      refine ⟨?_, rfl, by simp [Operand.isTarget]⟩
      show (leBytes 4 targets.length ++ _).length = 4 + 4 * targets.length
      rw [List.length_append, leBytes_length, hlen, Nat.mul_comm]
  | _ =>
      obtain ⟨v, rfl⟩ := h
      simp [encOperand, OperandKind.fixedSize, OperandKind.isToken, Operand.token,
        Operand.isString, Operand.isTarget]

theorem Instruction.Encodable.conforms {i : Instruction} (hi : i.Encodable) : i.Conforms := by
  obtain ⟨hlen, htoken, htarget⟩ := shape_of_fits hi.fits
  refine ⟨?_, htoken, ?_⟩
  · rw [hi.size_eq, i.enc_length, hlen]
  · rw [Bool.eq_iff_iff, htarget, isBranch_iff]

namespace InstructionIter

/-- Every instruction of a run, whether or not the run ends in an error, has the shape of its
opcode. -/
theorem run_conforms {code : List UInt8} {items : List (Result Instruction)}
    {last : InstructionIter} (hlen : code.length < 2 ^ 32)
    (h : Yields next (new code) items last) : ∀ i, .ok i ∈ items → i.Conforms := by
  intro i hi
  obtain ⟨offset, hdecode⟩ := ok_of_yields h i hi
  obtain ⟨_, _, henc⟩ := enc_of_decodeAt hlen hdecode
  exact henc.conforms

/-- A `switch` of one target behind its own nine bytes, then a byte that is no opcode. -/
theorem run_conforms_switch : Instruction.Conforms ⟨0, 9, .switch, .switch [9]⟩ :=
  @run_conforms [0x45, 1, 0, 0, 0, 0, 0, 0, 0, 0xFF]
    [.ok ⟨0, 9, .switch, .switch [9]⟩, .error ⟨.unknownOpcode, some 9, cilContext⟩] _
    (by decide) (.item rfl (.item rfl (.done rfl))) _ (.head _)

end InstructionIter

end Cildec
