import Cildec.Il.Table
import Cildec.Reader
import Cildec.Token

/-!
# The CIL instruction decoder (`src/il/mod.rs`)

`decodeAt` decodes one instruction. Branch operands are absolute IL offsets, computed
from the offset of the following instruction plus the encoded delta, modulo `2 ^ 32`.
A float operand is its bit pattern.
-/

namespace Cildec

open Wire

/-- A decoded instruction operand. -/
inductive Operand where
  | none
  | i8 (value : Int8)
  | i32 (value : Int32)
  | i64 (value : Int64)
  | r32 (bits : UInt32)
  | r64 (bits : UInt64)
  | branchTarget (target : UInt32)
  | switch (targets : List UInt32)
  | method (token : Token)
  | field (token : Token)
  | type (token : Token)
  | tok (token : Token)
  | sig (token : Token)
  | string (token : UserStringToken)
  | var (index : UInt16)
  deriving DecidableEq, Repr

/-- The token, for the operand kinds that carry one. -/
def Operand.token : Operand → Option Token
  | .method t => some t
  | .field t => some t
  | .type t => some t
  | .tok t => some t
  | .sig t => some t
  | _ => Option.none

/-- One decoded instruction. -/
structure Instruction where
  offset : UInt32
  size : UInt32
  opcode : OpCode
  operand : Operand
  deriving DecidableEq, Repr

/-- The IL offset of the following instruction. -/
def Instruction.nextOffset (i : Instruction) : UInt32 := i.offset + i.size

/-- The operand of an opcode with no operand bytes: what a macro encoding implies. -/
def impliedOperand (opcode : OpCode) : Operand :=
  match opcode.impliedVar, opcode.impliedI32 with
  | some index, _ => .var index
  | _, some value => .i32 value
  | _, _ => .none

/-- The offset after the bytes read so far. -/
def nextFrom (offset : UInt32) : Read UInt32 := do
  let r ← get
  return offset + UInt32.ofNat r.position

/-- Reads the targets of a `switch`. -/
def decodeSwitch (offset : UInt32) : Read Operand := do
  let count ← Reader.u32
  let r ← get
  -- a count larger than the remaining code is rejected before it is trusted
  if r.remaining / 4 < count.toNat then
    throw (Error.new .truncated offset.toNat cilContext)
  else do
    let deltas ← repeatM Reader.i32 count.toNat
    let next ← nextFrom offset
    return .switch (deltas.map fun d => next + d.toUInt32)

/-- Reads the operand of an opcode, after its encoding bytes. -/
def decodeOperand (offset : UInt32) (opcode : OpCode) : Read Operand :=
  match opcode.info.operand with
  | .inlineNone => return impliedOperand opcode
  | .shortInlineI => do
      let value ← Reader.i8
      if opcode = .ldcI4S then return .i32 value.toInt32 else return .i8 value
  | .inlineI => do
      let value ← Reader.i32
      return .i32 value
  | .inlineI8 => do
      let value ← Reader.i64
      return .i64 value
  | .shortInlineR => do
      let bits ← Reader.u32
      return .r32 bits
  | .inlineR => do
      let bits ← Reader.u64
      return .r64 bits
  | .shortInlineVar => do
      let index ← Reader.u8
      return .var index.toUInt16
  | .inlineVar => do
      let index ← Reader.u16
      return .var index
  | .shortInlineBrTarget => do
      let delta ← Reader.i8
      let next ← nextFrom offset
      return .branchTarget (next + delta.toInt32.toUInt32)
  | .inlineBrTarget => do
      let delta ← Reader.i32
      let next ← nextFrom offset
      return .branchTarget (next + delta.toUInt32)
  | .inlineSwitch => decodeSwitch offset
  | .inlineMethod => do
      let token ← Reader.u32
      return .method ⟨token⟩
  | .inlineField => do
      let token ← Reader.u32
      return .field ⟨token⟩
  | .inlineType => do
      let token ← Reader.u32
      return .type ⟨token⟩
  | .inlineTok => do
      let token ← Reader.u32
      return .tok ⟨token⟩
  | .inlineSig => do
      let token ← Reader.u32
      return .sig ⟨token⟩
  | .inlineString => do
      let token ← Reader.u32
      return .string ⟨token⟩

/-- The operand and the size of an instruction whose opcode takes `opcodeSize` bytes. -/
def decodeRest (offset : UInt32) (opcode : OpCode) (opcodeSize : Nat) :
    Read (Operand × UInt32) := do
  Reader.skip opcodeSize
  let operand ← decodeOperand offset opcode
  let r ← get
  return (operand, UInt32.ofNat r.position)

/-- Decodes one instruction at `offset` in `code`. -/
def decodeAt (code : List UInt8) (offset : UInt32) : Result Instruction :=
  let start := offset.toNat
  match slice? code start code.length with
  | none => .error (Error.new .outOfRange start cilContext)
  | some rest =>
      match OpCode.fromBytes rest with
      | .error e => .error (e.rebase start)
      | .ok (opcode, opcodeSize) =>
          match (decodeRest offset opcode opcodeSize).run (Reader.new rest start cilContext) with
          | .ok (operand, size) _ => .ok { offset, size, opcode, operand }
          | .error e _ => .error e

end Cildec
