import Mathlib.Data.List.Chain
import Cildec.Error

/-!
# The opcode table (`src/il/table.rs`, `src/il/mod.rs`)

The opcode enumeration, the facts recorded about each opcode, and the two decoding
tables. They are separate tables of the source and stay separate here; the theorems at
the end say that they agree: `from_bytes` and `info.encoding` are inverse.
-/

namespace Cildec

/-- `CTX` of the CIL decoder. -/
def cilContext : String := "CIL"

/-- Every CIL opcode and prefix of ECMA-335 VI.C, in table order. -/
inductive OpCode where
  | nop | «break» | ldarg0 | ldarg1 | ldarg2 | ldarg3 | ldloc0 | ldloc1 | ldloc2 | ldloc3
  | stloc0 | stloc1 | stloc2 | stloc3 | ldargS | ldargaS | stargS | ldlocS | ldlocaS
  | stlocS | ldnull | ldcI4M1 | ldcI40 | ldcI41 | ldcI42 | ldcI43 | ldcI44 | ldcI45
  | ldcI46 | ldcI47 | ldcI48 | ldcI4S | ldcI4 | ldcI8 | ldcR4 | ldcR8 | dup | pop | jmp
  | call | calli | ret | brS | brfalseS | brtrueS | beqS | bgeS | bgtS | bleS | bltS
  | bneUnS | bgeUnS | bgtUnS | bleUnS | bltUnS | br | brfalse | brtrue | beq | bge | bgt
  | ble | blt | bneUn | bgeUn | bgtUn | bleUn | bltUn | switch | ldindI1 | ldindU1
  | ldindI2 | ldindU2 | ldindI4 | ldindU4 | ldindI8 | ldindI | ldindR4 | ldindR8 | ldindRef
  | stindRef | stindI1 | stindI2 | stindI4 | stindI8 | stindR4 | stindR8 | add | sub | mul
  | div | divUn | rem | remUn | and | or | xor | shl | shr | shrUn | neg | not | convI1
  | convI2 | convI4 | convI8 | convR4 | convR8 | convU4 | convU8 | callvirt | cpobj | ldobj
  | ldstr | newobj | castclass | isinst | convRUn | unbox | throw | ldfld | ldflda | stfld
  | ldsfld | ldsflda | stsfld | stobj | convOvfI1Un | convOvfI2Un | convOvfI4Un
  | convOvfI8Un | convOvfU1Un | convOvfU2Un | convOvfU4Un | convOvfU8Un | convOvfIUn
  | convOvfUUn | box | newarr | ldlen | ldelema | ldelemI1 | ldelemU1 | ldelemI2 | ldelemU2
  | ldelemI4 | ldelemU4 | ldelemI8 | ldelemI | ldelemR4 | ldelemR8 | ldelemRef | stelemI
  | stelemI1 | stelemI2 | stelemI4 | stelemI8 | stelemR4 | stelemR8 | stelemRef | ldelem
  | stelem | unboxAny | convOvfI1 | convOvfU1 | convOvfI2 | convOvfU2 | convOvfI4
  | convOvfU4 | convOvfI8 | convOvfU8 | refanyval | ckfinite | mkrefany | ldtoken | convU2
  | convU1 | convI | convOvfI | convOvfU | addOvf | addOvfUn | mulOvf | mulOvfUn | subOvf
  | subOvfUn | endfinally | leave | leaveS | stindI | convU | arglist | ceq | cgt | cgtUn
  | clt | cltUn | ldftn | ldvirtftn | ldarg | ldarga | starg | ldloc | ldloca | stloc
  | localloc | endfilter | unaligned | volatile | tail | initobj | constrained | cpblk
  | initblk | no | rethrow | sizeof | refanytype | readonly
  deriving DecidableEq, Repr

/-- The shape of an instruction operand (ECMA-335 VI.C). -/
inductive OperandKind where
  | inlineNone | inlineI | shortInlineI | inlineI8 | shortInlineR | inlineR
  | inlineBrTarget | shortInlineBrTarget | inlineSwitch | inlineMethod | inlineField
  | inlineType | inlineTok | inlineString | inlineSig | inlineVar | shortInlineVar
  deriving DecidableEq, Repr

/-- How many operands an instruction pops. -/
inductive StackBehaviourPop where
  | pop0 | pop1 | pop1Pop1 | popI | popIPop1 | popIPopI | popIPopI8 | popIPopIPopI
  | popIPopR4 | popIPopR8 | popRef | popRefPop1 | popRefPopI | popRefPopIPop1
  | popRefPopIPopI | popRefPopIPopI8 | popRefPopIPopR4 | popRefPopIPopR8
  | popRefPopIPopRef | varPop
  deriving DecidableEq, Repr

/-- How many results an instruction pushes. -/
inductive StackBehaviourPush where
  | push0 | push1 | push1Push1 | pushI | pushI8 | pushR4 | pushR8 | pushRef | varPush
  deriving DecidableEq, Repr

/-- How an instruction affects control flow. -/
inductive FlowControl where
  | next | branch | condBranch | call | «return» | throw | «break» | «meta»
  deriving DecidableEq, Repr

/-- The category an opcode belongs to. -/
inductive OpCodeKind where
  | primitive | macroOp | objModel | prefixOp | internal
  deriving DecidableEq, Repr

/-- The static facts about one opcode. -/
structure OpCodeInfo where
  name : String
  encoding : UInt8 × UInt8
  size : Nat
  operand : OperandKind
  pop : StackBehaviourPop
  push : StackBehaviourPush
  flow : FlowControl
  kind : OpCodeKind
  deriving DecidableEq, Repr

namespace OpCode

/-- `ALL_OPCODES`. -/
def all : List OpCode :=
   [.nop, .«break», .ldarg0, .ldarg1, .ldarg2, .ldarg3, .ldloc0, .ldloc1, .ldloc2, .ldloc3,
    .stloc0, .stloc1, .stloc2, .stloc3, .ldargS, .ldargaS, .stargS, .ldlocS, .ldlocaS,
    .stlocS, .ldnull, .ldcI4M1, .ldcI40, .ldcI41, .ldcI42, .ldcI43, .ldcI44, .ldcI45,
    .ldcI46, .ldcI47, .ldcI48, .ldcI4S, .ldcI4, .ldcI8, .ldcR4, .ldcR8, .dup, .pop, .jmp,
    .call, .calli, .ret, .brS, .brfalseS, .brtrueS, .beqS, .bgeS, .bgtS, .bleS, .bltS,
    .bneUnS, .bgeUnS, .bgtUnS, .bleUnS, .bltUnS, .br, .brfalse, .brtrue, .beq, .bge, .bgt,
    .ble, .blt, .bneUn, .bgeUn, .bgtUn, .bleUn, .bltUn, .switch, .ldindI1, .ldindU1,
    .ldindI2, .ldindU2, .ldindI4, .ldindU4, .ldindI8, .ldindI, .ldindR4, .ldindR8,
    .ldindRef, .stindRef, .stindI1, .stindI2, .stindI4, .stindI8, .stindR4, .stindR8, .add,
    .sub, .mul, .div, .divUn, .rem, .remUn, .and, .or, .xor, .shl, .shr, .shrUn, .neg,
    .not, .convI1, .convI2, .convI4, .convI8, .convR4, .convR8, .convU4, .convU8,
    .callvirt, .cpobj, .ldobj, .ldstr, .newobj, .castclass, .isinst, .convRUn, .unbox,
    .throw, .ldfld, .ldflda, .stfld, .ldsfld, .ldsflda, .stsfld, .stobj, .convOvfI1Un,
    .convOvfI2Un, .convOvfI4Un, .convOvfI8Un, .convOvfU1Un, .convOvfU2Un, .convOvfU4Un,
    .convOvfU8Un, .convOvfIUn, .convOvfUUn, .box, .newarr, .ldlen, .ldelema, .ldelemI1,
    .ldelemU1, .ldelemI2, .ldelemU2, .ldelemI4, .ldelemU4, .ldelemI8, .ldelemI, .ldelemR4,
    .ldelemR8, .ldelemRef, .stelemI, .stelemI1, .stelemI2, .stelemI4, .stelemI8, .stelemR4,
    .stelemR8, .stelemRef, .ldelem, .stelem, .unboxAny, .convOvfI1, .convOvfU1, .convOvfI2,
    .convOvfU2, .convOvfI4, .convOvfU4, .convOvfI8, .convOvfU8, .refanyval, .ckfinite,
    .mkrefany, .ldtoken, .convU2, .convU1, .convI, .convOvfI, .convOvfU, .addOvf,
    .addOvfUn, .mulOvf, .mulOvfUn, .subOvf, .subOvfUn, .endfinally, .leave, .leaveS,
    .stindI, .convU, .arglist, .ceq, .cgt, .cgtUn, .clt, .cltUn, .ldftn, .ldvirtftn,
    .ldarg, .ldarga, .starg, .ldloc, .ldloca, .stloc, .localloc, .endfilter, .unaligned,
    .volatile, .tail, .initobj, .constrained, .cpblk, .initblk, .no, .rethrow, .sizeof,
    .refanytype, .readonly]

/-- The discriminant of an opcode. -/
def index (op : OpCode) : Nat := op.ctorIdx

end OpCode

/-- `OPCODE_INFO`: one row per opcode, in table order. -/
def opcodeInfo : List OpCodeInfo :=
  [⟨"nop", (0x00, 0x00), 1, .inlineNone, .pop0, .push0, .next, .primitive⟩,
    ⟨"break", (0x01, 0x00), 1, .inlineNone, .pop0, .push0, .«break», .primitive⟩,
    ⟨"ldarg.0", (0x02, 0x00), 1, .inlineNone, .pop0, .push1, .next, .macroOp⟩,
    ⟨"ldarg.1", (0x03, 0x00), 1, .inlineNone, .pop0, .push1, .next, .macroOp⟩,
    ⟨"ldarg.2", (0x04, 0x00), 1, .inlineNone, .pop0, .push1, .next, .macroOp⟩,
    ⟨"ldarg.3", (0x05, 0x00), 1, .inlineNone, .pop0, .push1, .next, .macroOp⟩,
    ⟨"ldloc.0", (0x06, 0x00), 1, .inlineNone, .pop0, .push1, .next, .macroOp⟩,
    ⟨"ldloc.1", (0x07, 0x00), 1, .inlineNone, .pop0, .push1, .next, .macroOp⟩,
    ⟨"ldloc.2", (0x08, 0x00), 1, .inlineNone, .pop0, .push1, .next, .macroOp⟩,
    ⟨"ldloc.3", (0x09, 0x00), 1, .inlineNone, .pop0, .push1, .next, .macroOp⟩,
    ⟨"stloc.0", (0x0A, 0x00), 1, .inlineNone, .pop1, .push0, .next, .macroOp⟩,
    ⟨"stloc.1", (0x0B, 0x00), 1, .inlineNone, .pop1, .push0, .next, .macroOp⟩,
    ⟨"stloc.2", (0x0C, 0x00), 1, .inlineNone, .pop1, .push0, .next, .macroOp⟩,
    ⟨"stloc.3", (0x0D, 0x00), 1, .inlineNone, .pop1, .push0, .next, .macroOp⟩,
    ⟨"ldarg.s", (0x0E, 0x00), 1, .shortInlineVar, .pop0, .push1, .next, .macroOp⟩,
    ⟨"ldarga.s", (0x0F, 0x00), 1, .shortInlineVar, .pop0, .pushI, .next, .macroOp⟩,
    ⟨"starg.s", (0x10, 0x00), 1, .shortInlineVar, .pop1, .push0, .next, .macroOp⟩,
    ⟨"ldloc.s", (0x11, 0x00), 1, .shortInlineVar, .pop0, .push1, .next, .macroOp⟩,
    ⟨"ldloca.s", (0x12, 0x00), 1, .shortInlineVar, .pop0, .pushI, .next, .macroOp⟩,
    ⟨"stloc.s", (0x13, 0x00), 1, .shortInlineVar, .pop1, .push0, .next, .macroOp⟩,
    ⟨"ldnull", (0x14, 0x00), 1, .inlineNone, .pop0, .pushRef, .next, .primitive⟩,
    ⟨"ldc.i4.m1", (0x15, 0x00), 1, .inlineNone, .pop0, .pushI, .next, .macroOp⟩,
    ⟨"ldc.i4.0", (0x16, 0x00), 1, .inlineNone, .pop0, .pushI, .next, .macroOp⟩,
    ⟨"ldc.i4.1", (0x17, 0x00), 1, .inlineNone, .pop0, .pushI, .next, .macroOp⟩,
    ⟨"ldc.i4.2", (0x18, 0x00), 1, .inlineNone, .pop0, .pushI, .next, .macroOp⟩,
    ⟨"ldc.i4.3", (0x19, 0x00), 1, .inlineNone, .pop0, .pushI, .next, .macroOp⟩,
    ⟨"ldc.i4.4", (0x1A, 0x00), 1, .inlineNone, .pop0, .pushI, .next, .macroOp⟩,
    ⟨"ldc.i4.5", (0x1B, 0x00), 1, .inlineNone, .pop0, .pushI, .next, .macroOp⟩,
    ⟨"ldc.i4.6", (0x1C, 0x00), 1, .inlineNone, .pop0, .pushI, .next, .macroOp⟩,
    ⟨"ldc.i4.7", (0x1D, 0x00), 1, .inlineNone, .pop0, .pushI, .next, .macroOp⟩,
    ⟨"ldc.i4.8", (0x1E, 0x00), 1, .inlineNone, .pop0, .pushI, .next, .macroOp⟩,
    ⟨"ldc.i4.s", (0x1F, 0x00), 1, .shortInlineI, .pop0, .pushI, .next, .macroOp⟩,
    ⟨"ldc.i4", (0x20, 0x00), 1, .inlineI, .pop0, .pushI, .next, .primitive⟩,
    ⟨"ldc.i8", (0x21, 0x00), 1, .inlineI8, .pop0, .pushI8, .next, .primitive⟩,
    ⟨"ldc.r4", (0x22, 0x00), 1, .shortInlineR, .pop0, .pushR4, .next, .primitive⟩,
    ⟨"ldc.r8", (0x23, 0x00), 1, .inlineR, .pop0, .pushR8, .next, .primitive⟩,
    ⟨"dup", (0x25, 0x00), 1, .inlineNone, .pop1, .push1Push1, .next, .primitive⟩,
    ⟨"pop", (0x26, 0x00), 1, .inlineNone, .pop1, .push0, .next, .primitive⟩,
    ⟨"jmp", (0x27, 0x00), 1, .inlineMethod, .pop0, .push0, .call, .primitive⟩,
    ⟨"call", (0x28, 0x00), 1, .inlineMethod, .varPop, .varPush, .call, .primitive⟩,
    ⟨"calli", (0x29, 0x00), 1, .inlineSig, .varPop, .varPush, .call, .primitive⟩,
    ⟨"ret", (0x2A, 0x00), 1, .inlineNone, .varPop, .push0, .return, .primitive⟩,
    ⟨"br.s", (0x2B, 0x00), 1, .shortInlineBrTarget, .pop0, .push0, .branch, .macroOp⟩,
    ⟨"brfalse.s", (0x2C, 0x00), 1, .shortInlineBrTarget, .popI, .push0, .condBranch, .macroOp⟩,
    ⟨"brtrue.s", (0x2D, 0x00), 1, .shortInlineBrTarget, .popI, .push0, .condBranch, .macroOp⟩,
    ⟨"beq.s", (0x2E, 0x00), 1, .shortInlineBrTarget, .pop1Pop1, .push0, .condBranch, .macroOp⟩,
    ⟨"bge.s", (0x2F, 0x00), 1, .shortInlineBrTarget, .pop1Pop1, .push0, .condBranch, .macroOp⟩,
    ⟨"bgt.s", (0x30, 0x00), 1, .shortInlineBrTarget, .pop1Pop1, .push0, .condBranch, .macroOp⟩,
    ⟨"ble.s", (0x31, 0x00), 1, .shortInlineBrTarget, .pop1Pop1, .push0, .condBranch, .macroOp⟩,
    ⟨"blt.s", (0x32, 0x00), 1, .shortInlineBrTarget, .pop1Pop1, .push0, .condBranch, .macroOp⟩,
    ⟨"bne.un.s", (0x33, 0x00), 1, .shortInlineBrTarget, .pop1Pop1, .push0, .condBranch, .macroOp⟩,
    ⟨"bge.un.s", (0x34, 0x00), 1, .shortInlineBrTarget, .pop1Pop1, .push0, .condBranch, .macroOp⟩,
    ⟨"bgt.un.s", (0x35, 0x00), 1, .shortInlineBrTarget, .pop1Pop1, .push0, .condBranch, .macroOp⟩,
    ⟨"ble.un.s", (0x36, 0x00), 1, .shortInlineBrTarget, .pop1Pop1, .push0, .condBranch, .macroOp⟩,
    ⟨"blt.un.s", (0x37, 0x00), 1, .shortInlineBrTarget, .pop1Pop1, .push0, .condBranch, .macroOp⟩,
    ⟨"br", (0x38, 0x00), 1, .inlineBrTarget, .pop0, .push0, .branch, .primitive⟩,
    ⟨"brfalse", (0x39, 0x00), 1, .inlineBrTarget, .popI, .push0, .condBranch, .primitive⟩,
    ⟨"brtrue", (0x3A, 0x00), 1, .inlineBrTarget, .popI, .push0, .condBranch, .primitive⟩,
    ⟨"beq", (0x3B, 0x00), 1, .inlineBrTarget, .pop1Pop1, .push0, .condBranch, .macroOp⟩,
    ⟨"bge", (0x3C, 0x00), 1, .inlineBrTarget, .pop1Pop1, .push0, .condBranch, .macroOp⟩,
    ⟨"bgt", (0x3D, 0x00), 1, .inlineBrTarget, .pop1Pop1, .push0, .condBranch, .macroOp⟩,
    ⟨"ble", (0x3E, 0x00), 1, .inlineBrTarget, .pop1Pop1, .push0, .condBranch, .macroOp⟩,
    ⟨"blt", (0x3F, 0x00), 1, .inlineBrTarget, .pop1Pop1, .push0, .condBranch, .macroOp⟩,
    ⟨"bne.un", (0x40, 0x00), 1, .inlineBrTarget, .pop1Pop1, .push0, .condBranch, .macroOp⟩,
    ⟨"bge.un", (0x41, 0x00), 1, .inlineBrTarget, .pop1Pop1, .push0, .condBranch, .macroOp⟩,
    ⟨"bgt.un", (0x42, 0x00), 1, .inlineBrTarget, .pop1Pop1, .push0, .condBranch, .macroOp⟩,
    ⟨"ble.un", (0x43, 0x00), 1, .inlineBrTarget, .pop1Pop1, .push0, .condBranch, .macroOp⟩,
    ⟨"blt.un", (0x44, 0x00), 1, .inlineBrTarget, .pop1Pop1, .push0, .condBranch, .macroOp⟩,
    ⟨"switch", (0x45, 0x00), 1, .inlineSwitch, .popI, .push0, .condBranch, .primitive⟩,
    ⟨"ldind.i1", (0x46, 0x00), 1, .inlineNone, .popI, .pushI, .next, .primitive⟩,
    ⟨"ldind.u1", (0x47, 0x00), 1, .inlineNone, .popI, .pushI, .next, .primitive⟩,
    ⟨"ldind.i2", (0x48, 0x00), 1, .inlineNone, .popI, .pushI, .next, .primitive⟩,
    ⟨"ldind.u2", (0x49, 0x00), 1, .inlineNone, .popI, .pushI, .next, .primitive⟩,
    ⟨"ldind.i4", (0x4A, 0x00), 1, .inlineNone, .popI, .pushI, .next, .primitive⟩,
    ⟨"ldind.u4", (0x4B, 0x00), 1, .inlineNone, .popI, .pushI, .next, .primitive⟩,
    ⟨"ldind.i8", (0x4C, 0x00), 1, .inlineNone, .popI, .pushI8, .next, .primitive⟩,
    ⟨"ldind.i", (0x4D, 0x00), 1, .inlineNone, .popI, .pushI, .next, .primitive⟩,
    ⟨"ldind.r4", (0x4E, 0x00), 1, .inlineNone, .popI, .pushR4, .next, .primitive⟩,
    ⟨"ldind.r8", (0x4F, 0x00), 1, .inlineNone, .popI, .pushR8, .next, .primitive⟩,
    ⟨"ldind.ref", (0x50, 0x00), 1, .inlineNone, .popI, .pushRef, .next, .primitive⟩,
    ⟨"stind.ref", (0x51, 0x00), 1, .inlineNone, .popIPopI, .push0, .next, .primitive⟩,
    ⟨"stind.i1", (0x52, 0x00), 1, .inlineNone, .popIPopI, .push0, .next, .primitive⟩,
    ⟨"stind.i2", (0x53, 0x00), 1, .inlineNone, .popIPopI, .push0, .next, .primitive⟩,
    ⟨"stind.i4", (0x54, 0x00), 1, .inlineNone, .popIPopI, .push0, .next, .primitive⟩,
    ⟨"stind.i8", (0x55, 0x00), 1, .inlineNone, .popIPopI8, .push0, .next, .primitive⟩,
    ⟨"stind.r4", (0x56, 0x00), 1, .inlineNone, .popIPopR4, .push0, .next, .primitive⟩,
    ⟨"stind.r8", (0x57, 0x00), 1, .inlineNone, .popIPopR8, .push0, .next, .primitive⟩,
    ⟨"add", (0x58, 0x00), 1, .inlineNone, .pop1Pop1, .push1, .next, .primitive⟩,
    ⟨"sub", (0x59, 0x00), 1, .inlineNone, .pop1Pop1, .push1, .next, .primitive⟩,
    ⟨"mul", (0x5A, 0x00), 1, .inlineNone, .pop1Pop1, .push1, .next, .primitive⟩,
    ⟨"div", (0x5B, 0x00), 1, .inlineNone, .pop1Pop1, .push1, .next, .primitive⟩,
    ⟨"div.un", (0x5C, 0x00), 1, .inlineNone, .pop1Pop1, .push1, .next, .primitive⟩,
    ⟨"rem", (0x5D, 0x00), 1, .inlineNone, .pop1Pop1, .push1, .next, .primitive⟩,
    ⟨"rem.un", (0x5E, 0x00), 1, .inlineNone, .pop1Pop1, .push1, .next, .primitive⟩,
    ⟨"and", (0x5F, 0x00), 1, .inlineNone, .pop1Pop1, .push1, .next, .primitive⟩,
    ⟨"or", (0x60, 0x00), 1, .inlineNone, .pop1Pop1, .push1, .next, .primitive⟩,
    ⟨"xor", (0x61, 0x00), 1, .inlineNone, .pop1Pop1, .push1, .next, .primitive⟩,
    ⟨"shl", (0x62, 0x00), 1, .inlineNone, .pop1Pop1, .push1, .next, .primitive⟩,
    ⟨"shr", (0x63, 0x00), 1, .inlineNone, .pop1Pop1, .push1, .next, .primitive⟩,
    ⟨"shr.un", (0x64, 0x00), 1, .inlineNone, .pop1Pop1, .push1, .next, .primitive⟩,
    ⟨"neg", (0x65, 0x00), 1, .inlineNone, .pop1, .push1, .next, .primitive⟩,
    ⟨"not", (0x66, 0x00), 1, .inlineNone, .pop1, .push1, .next, .primitive⟩,
    ⟨"conv.i1", (0x67, 0x00), 1, .inlineNone, .pop1, .pushI, .next, .primitive⟩,
    ⟨"conv.i2", (0x68, 0x00), 1, .inlineNone, .pop1, .pushI, .next, .primitive⟩,
    ⟨"conv.i4", (0x69, 0x00), 1, .inlineNone, .pop1, .pushI, .next, .primitive⟩,
    ⟨"conv.i8", (0x6A, 0x00), 1, .inlineNone, .pop1, .pushI8, .next, .primitive⟩,
    ⟨"conv.r4", (0x6B, 0x00), 1, .inlineNone, .pop1, .pushR4, .next, .primitive⟩,
    ⟨"conv.r8", (0x6C, 0x00), 1, .inlineNone, .pop1, .pushR8, .next, .primitive⟩,
    ⟨"conv.u4", (0x6D, 0x00), 1, .inlineNone, .pop1, .pushI, .next, .primitive⟩,
    ⟨"conv.u8", (0x6E, 0x00), 1, .inlineNone, .pop1, .pushI8, .next, .primitive⟩,
    ⟨"callvirt", (0x6F, 0x00), 1, .inlineMethod, .varPop, .varPush, .call, .objModel⟩,
    ⟨"cpobj", (0x70, 0x00), 1, .inlineType, .popIPopI, .push0, .next, .objModel⟩,
    ⟨"ldobj", (0x71, 0x00), 1, .inlineType, .popI, .push1, .next, .objModel⟩,
    ⟨"ldstr", (0x72, 0x00), 1, .inlineString, .pop0, .pushRef, .next, .objModel⟩,
    ⟨"newobj", (0x73, 0x00), 1, .inlineMethod, .varPop, .pushRef, .call, .objModel⟩,
    ⟨"castclass", (0x74, 0x00), 1, .inlineType, .popRef, .pushRef, .next, .objModel⟩,
    ⟨"isinst", (0x75, 0x00), 1, .inlineType, .popRef, .pushI, .next, .objModel⟩,
    ⟨"conv.r.un", (0x76, 0x00), 1, .inlineNone, .pop1, .pushR8, .next, .primitive⟩,
    ⟨"unbox", (0x79, 0x00), 1, .inlineType, .popRef, .pushI, .next, .primitive⟩,
    ⟨"throw", (0x7A, 0x00), 1, .inlineNone, .popRef, .push0, .throw, .objModel⟩,
    ⟨"ldfld", (0x7B, 0x00), 1, .inlineField, .popRef, .push1, .next, .objModel⟩,
    ⟨"ldflda", (0x7C, 0x00), 1, .inlineField, .popRef, .pushI, .next, .objModel⟩,
    ⟨"stfld", (0x7D, 0x00), 1, .inlineField, .popRefPop1, .push0, .next, .objModel⟩,
    ⟨"ldsfld", (0x7E, 0x00), 1, .inlineField, .pop0, .push1, .next, .objModel⟩,
    ⟨"ldsflda", (0x7F, 0x00), 1, .inlineField, .pop0, .pushI, .next, .objModel⟩,
    ⟨"stsfld", (0x80, 0x00), 1, .inlineField, .pop1, .push0, .next, .objModel⟩,
    ⟨"stobj", (0x81, 0x00), 1, .inlineType, .popIPop1, .push0, .next, .primitive⟩,
    ⟨"conv.ovf.i1.un", (0x82, 0x00), 1, .inlineNone, .pop1, .pushI, .next, .primitive⟩,
    ⟨"conv.ovf.i2.un", (0x83, 0x00), 1, .inlineNone, .pop1, .pushI, .next, .primitive⟩,
    ⟨"conv.ovf.i4.un", (0x84, 0x00), 1, .inlineNone, .pop1, .pushI, .next, .primitive⟩,
    ⟨"conv.ovf.i8.un", (0x85, 0x00), 1, .inlineNone, .pop1, .pushI8, .next, .primitive⟩,
    ⟨"conv.ovf.u1.un", (0x86, 0x00), 1, .inlineNone, .pop1, .pushI, .next, .primitive⟩,
    ⟨"conv.ovf.u2.un", (0x87, 0x00), 1, .inlineNone, .pop1, .pushI, .next, .primitive⟩,
    ⟨"conv.ovf.u4.un", (0x88, 0x00), 1, .inlineNone, .pop1, .pushI, .next, .primitive⟩,
    ⟨"conv.ovf.u8.un", (0x89, 0x00), 1, .inlineNone, .pop1, .pushI8, .next, .primitive⟩,
    ⟨"conv.ovf.i.un", (0x8A, 0x00), 1, .inlineNone, .pop1, .pushI, .next, .primitive⟩,
    ⟨"conv.ovf.u.un", (0x8B, 0x00), 1, .inlineNone, .pop1, .pushI, .next, .primitive⟩,
    ⟨"box", (0x8C, 0x00), 1, .inlineType, .pop1, .pushRef, .next, .primitive⟩,
    ⟨"newarr", (0x8D, 0x00), 1, .inlineType, .popI, .pushRef, .next, .objModel⟩,
    ⟨"ldlen", (0x8E, 0x00), 1, .inlineNone, .popRef, .pushI, .next, .objModel⟩,
    ⟨"ldelema", (0x8F, 0x00), 1, .inlineType, .popRefPopI, .pushI, .next, .objModel⟩,
    ⟨"ldelem.i1", (0x90, 0x00), 1, .inlineNone, .popRefPopI, .pushI, .next, .objModel⟩,
    ⟨"ldelem.u1", (0x91, 0x00), 1, .inlineNone, .popRefPopI, .pushI, .next, .objModel⟩,
    ⟨"ldelem.i2", (0x92, 0x00), 1, .inlineNone, .popRefPopI, .pushI, .next, .objModel⟩,
    ⟨"ldelem.u2", (0x93, 0x00), 1, .inlineNone, .popRefPopI, .pushI, .next, .objModel⟩,
    ⟨"ldelem.i4", (0x94, 0x00), 1, .inlineNone, .popRefPopI, .pushI, .next, .objModel⟩,
    ⟨"ldelem.u4", (0x95, 0x00), 1, .inlineNone, .popRefPopI, .pushI, .next, .objModel⟩,
    ⟨"ldelem.i8", (0x96, 0x00), 1, .inlineNone, .popRefPopI, .pushI8, .next, .objModel⟩,
    ⟨"ldelem.i", (0x97, 0x00), 1, .inlineNone, .popRefPopI, .pushI, .next, .objModel⟩,
    ⟨"ldelem.r4", (0x98, 0x00), 1, .inlineNone, .popRefPopI, .pushR4, .next, .objModel⟩,
    ⟨"ldelem.r8", (0x99, 0x00), 1, .inlineNone, .popRefPopI, .pushR8, .next, .objModel⟩,
    ⟨"ldelem.ref", (0x9A, 0x00), 1, .inlineNone, .popRefPopI, .pushRef, .next, .objModel⟩,
    ⟨"stelem.i", (0x9B, 0x00), 1, .inlineNone, .popRefPopIPopI, .push0, .next, .objModel⟩,
    ⟨"stelem.i1", (0x9C, 0x00), 1, .inlineNone, .popRefPopIPopI, .push0, .next, .objModel⟩,
    ⟨"stelem.i2", (0x9D, 0x00), 1, .inlineNone, .popRefPopIPopI, .push0, .next, .objModel⟩,
    ⟨"stelem.i4", (0x9E, 0x00), 1, .inlineNone, .popRefPopIPopI, .push0, .next, .objModel⟩,
    ⟨"stelem.i8", (0x9F, 0x00), 1, .inlineNone, .popRefPopIPopI8, .push0, .next, .objModel⟩,
    ⟨"stelem.r4", (0xA0, 0x00), 1, .inlineNone, .popRefPopIPopR4, .push0, .next, .objModel⟩,
    ⟨"stelem.r8", (0xA1, 0x00), 1, .inlineNone, .popRefPopIPopR8, .push0, .next, .objModel⟩,
    ⟨"stelem.ref", (0xA2, 0x00), 1, .inlineNone, .popRefPopIPopRef, .push0, .next, .objModel⟩,
    ⟨"ldelem", (0xA3, 0x00), 1, .inlineType, .popRefPopI, .push1, .next, .objModel⟩,
    ⟨"stelem", (0xA4, 0x00), 1, .inlineType, .popRefPopIPop1, .push0, .next, .objModel⟩,
    ⟨"unbox.any", (0xA5, 0x00), 1, .inlineType, .popRef, .push1, .next, .objModel⟩,
    ⟨"conv.ovf.i1", (0xB3, 0x00), 1, .inlineNone, .pop1, .pushI, .next, .primitive⟩,
    ⟨"conv.ovf.u1", (0xB4, 0x00), 1, .inlineNone, .pop1, .pushI, .next, .primitive⟩,
    ⟨"conv.ovf.i2", (0xB5, 0x00), 1, .inlineNone, .pop1, .pushI, .next, .primitive⟩,
    ⟨"conv.ovf.u2", (0xB6, 0x00), 1, .inlineNone, .pop1, .pushI, .next, .primitive⟩,
    ⟨"conv.ovf.i4", (0xB7, 0x00), 1, .inlineNone, .pop1, .pushI, .next, .primitive⟩,
    ⟨"conv.ovf.u4", (0xB8, 0x00), 1, .inlineNone, .pop1, .pushI, .next, .primitive⟩,
    ⟨"conv.ovf.i8", (0xB9, 0x00), 1, .inlineNone, .pop1, .pushI8, .next, .primitive⟩,
    ⟨"conv.ovf.u8", (0xBA, 0x00), 1, .inlineNone, .pop1, .pushI8, .next, .primitive⟩,
    ⟨"refanyval", (0xC2, 0x00), 1, .inlineType, .pop1, .pushI, .next, .primitive⟩,
    ⟨"ckfinite", (0xC3, 0x00), 1, .inlineNone, .pop1, .pushR8, .next, .primitive⟩,
    ⟨"mkrefany", (0xC6, 0x00), 1, .inlineType, .popI, .push1, .next, .primitive⟩,
    ⟨"ldtoken", (0xD0, 0x00), 1, .inlineTok, .pop0, .pushI, .next, .primitive⟩,
    ⟨"conv.u2", (0xD1, 0x00), 1, .inlineNone, .pop1, .pushI, .next, .primitive⟩,
    ⟨"conv.u1", (0xD2, 0x00), 1, .inlineNone, .pop1, .pushI, .next, .primitive⟩,
    ⟨"conv.i", (0xD3, 0x00), 1, .inlineNone, .pop1, .pushI, .next, .primitive⟩,
    ⟨"conv.ovf.i", (0xD4, 0x00), 1, .inlineNone, .pop1, .pushI, .next, .primitive⟩,
    ⟨"conv.ovf.u", (0xD5, 0x00), 1, .inlineNone, .pop1, .pushI, .next, .primitive⟩,
    ⟨"add.ovf", (0xD6, 0x00), 1, .inlineNone, .pop1Pop1, .push1, .next, .primitive⟩,
    ⟨"add.ovf.un", (0xD7, 0x00), 1, .inlineNone, .pop1Pop1, .push1, .next, .primitive⟩,
    ⟨"mul.ovf", (0xD8, 0x00), 1, .inlineNone, .pop1Pop1, .push1, .next, .primitive⟩,
    ⟨"mul.ovf.un", (0xD9, 0x00), 1, .inlineNone, .pop1Pop1, .push1, .next, .primitive⟩,
    ⟨"sub.ovf", (0xDA, 0x00), 1, .inlineNone, .pop1Pop1, .push1, .next, .primitive⟩,
    ⟨"sub.ovf.un", (0xDB, 0x00), 1, .inlineNone, .pop1Pop1, .push1, .next, .primitive⟩,
    ⟨"endfinally", (0xDC, 0x00), 1, .inlineNone, .pop0, .push0, .return, .primitive⟩,
    ⟨"leave", (0xDD, 0x00), 1, .inlineBrTarget, .pop0, .push0, .branch, .primitive⟩,
    ⟨"leave.s", (0xDE, 0x00), 1, .shortInlineBrTarget, .pop0, .push0, .branch, .primitive⟩,
    ⟨"stind.i", (0xDF, 0x00), 1, .inlineNone, .popIPopI, .push0, .next, .primitive⟩,
    ⟨"conv.u", (0xE0, 0x00), 1, .inlineNone, .pop1, .pushI, .next, .primitive⟩,
    ⟨"arglist", (0xFE, 0x00), 2, .inlineNone, .pop0, .pushI, .next, .primitive⟩,
    ⟨"ceq", (0xFE, 0x01), 2, .inlineNone, .pop1Pop1, .pushI, .next, .primitive⟩,
    ⟨"cgt", (0xFE, 0x02), 2, .inlineNone, .pop1Pop1, .pushI, .next, .primitive⟩,
    ⟨"cgt.un", (0xFE, 0x03), 2, .inlineNone, .pop1Pop1, .pushI, .next, .primitive⟩,
    ⟨"clt", (0xFE, 0x04), 2, .inlineNone, .pop1Pop1, .pushI, .next, .primitive⟩,
    ⟨"clt.un", (0xFE, 0x05), 2, .inlineNone, .pop1Pop1, .pushI, .next, .primitive⟩,
    ⟨"ldftn", (0xFE, 0x06), 2, .inlineMethod, .pop0, .pushI, .next, .primitive⟩,
    ⟨"ldvirtftn", (0xFE, 0x07), 2, .inlineMethod, .popRef, .pushI, .next, .primitive⟩,
    ⟨"ldarg", (0xFE, 0x09), 2, .inlineVar, .pop0, .push1, .next, .primitive⟩,
    ⟨"ldarga", (0xFE, 0x0A), 2, .inlineVar, .pop0, .pushI, .next, .primitive⟩,
    ⟨"starg", (0xFE, 0x0B), 2, .inlineVar, .pop1, .push0, .next, .primitive⟩,
    ⟨"ldloc", (0xFE, 0x0C), 2, .inlineVar, .pop0, .push1, .next, .primitive⟩,
    ⟨"ldloca", (0xFE, 0x0D), 2, .inlineVar, .pop0, .pushI, .next, .primitive⟩,
    ⟨"stloc", (0xFE, 0x0E), 2, .inlineVar, .pop1, .push0, .next, .primitive⟩,
    ⟨"localloc", (0xFE, 0x0F), 2, .inlineNone, .popI, .pushI, .next, .primitive⟩,
    ⟨"endfilter", (0xFE, 0x11), 2, .inlineNone, .popI, .push0, .return, .primitive⟩,
    ⟨"unaligned.", (0xFE, 0x12), 2, .shortInlineI, .pop0, .push0, .meta, .prefixOp⟩,
    ⟨"volatile.", (0xFE, 0x13), 2, .inlineNone, .pop0, .push0, .meta, .prefixOp⟩,
    ⟨"tail.", (0xFE, 0x14), 2, .inlineNone, .pop0, .push0, .meta, .prefixOp⟩,
    ⟨"initobj", (0xFE, 0x15), 2, .inlineType, .popI, .push0, .next, .objModel⟩,
    ⟨"constrained.", (0xFE, 0x16), 2, .inlineType, .pop0, .push0, .meta, .prefixOp⟩,
    ⟨"cpblk", (0xFE, 0x17), 2, .inlineNone, .popIPopIPopI, .push0, .next, .primitive⟩,
    ⟨"initblk", (0xFE, 0x18), 2, .inlineNone, .popIPopIPopI, .push0, .next, .primitive⟩,
    ⟨"no.", (0xFE, 0x19), 2, .shortInlineI, .pop0, .push0, .meta, .prefixOp⟩,
    ⟨"rethrow", (0xFE, 0x1A), 2, .inlineNone, .pop0, .push0, .throw, .objModel⟩,
    ⟨"sizeof", (0xFE, 0x1C), 2, .inlineType, .pop0, .pushI, .next, .primitive⟩,
    ⟨"refanytype", (0xFE, 0x1D), 2, .inlineNone, .pop1, .pushI, .next, .primitive⟩,
    ⟨"readonly.", (0xFE, 0x1E), 2, .inlineNone, .pop0, .push0, .meta, .prefixOp⟩]

namespace OpCode

/-- The static facts about an opcode: the row its discriminant selects. -/
def info (op : OpCode) : OpCodeInfo :=
  opcodeInfo.getD op.index ⟨"", (0, 0), 0, .inlineNone, .pop0, .push0, .next, .internal⟩

/-- The opcode is an instruction prefix. -/
def isPrefix (op : OpCode) : Bool := op.info.kind == .prefixOp

/-! ## Decoding tables -/

/-- The arms of `decode_one`. -/
def oneByte : List (UInt8 × OpCode) :=
   [(0x00, .nop), (0x01, .«break»), (0x02, .ldarg0), (0x03, .ldarg1), (0x04, .ldarg2),
    (0x05, .ldarg3), (0x06, .ldloc0), (0x07, .ldloc1), (0x08, .ldloc2), (0x09, .ldloc3),
    (0x0A, .stloc0), (0x0B, .stloc1), (0x0C, .stloc2), (0x0D, .stloc3), (0x0E, .ldargS),
    (0x0F, .ldargaS), (0x10, .stargS), (0x11, .ldlocS), (0x12, .ldlocaS), (0x13, .stlocS),
    (0x14, .ldnull), (0x15, .ldcI4M1), (0x16, .ldcI40), (0x17, .ldcI41), (0x18, .ldcI42),
    (0x19, .ldcI43), (0x1A, .ldcI44), (0x1B, .ldcI45), (0x1C, .ldcI46), (0x1D, .ldcI47),
    (0x1E, .ldcI48), (0x1F, .ldcI4S), (0x20, .ldcI4), (0x21, .ldcI8), (0x22, .ldcR4),
    (0x23, .ldcR8), (0x25, .dup), (0x26, .pop), (0x27, .jmp), (0x28, .call),
    (0x29, .calli), (0x2A, .ret), (0x2B, .brS), (0x2C, .brfalseS), (0x2D, .brtrueS),
    (0x2E, .beqS), (0x2F, .bgeS), (0x30, .bgtS), (0x31, .bleS), (0x32, .bltS),
    (0x33, .bneUnS), (0x34, .bgeUnS), (0x35, .bgtUnS), (0x36, .bleUnS), (0x37, .bltUnS),
    (0x38, .br), (0x39, .brfalse), (0x3A, .brtrue), (0x3B, .beq), (0x3C, .bge),
    (0x3D, .bgt), (0x3E, .ble), (0x3F, .blt), (0x40, .bneUn), (0x41, .bgeUn),
    (0x42, .bgtUn), (0x43, .bleUn), (0x44, .bltUn), (0x45, .switch), (0x46, .ldindI1),
    (0x47, .ldindU1), (0x48, .ldindI2), (0x49, .ldindU2), (0x4A, .ldindI4),
    (0x4B, .ldindU4), (0x4C, .ldindI8), (0x4D, .ldindI), (0x4E, .ldindR4),
    (0x4F, .ldindR8), (0x50, .ldindRef), (0x51, .stindRef), (0x52, .stindI1),
    (0x53, .stindI2), (0x54, .stindI4), (0x55, .stindI8), (0x56, .stindR4),
    (0x57, .stindR8), (0x58, .add), (0x59, .sub), (0x5A, .mul), (0x5B, .div),
    (0x5C, .divUn), (0x5D, .rem), (0x5E, .remUn), (0x5F, .and), (0x60, .or), (0x61, .xor),
    (0x62, .shl), (0x63, .shr), (0x64, .shrUn), (0x65, .neg), (0x66, .not),
    (0x67, .convI1), (0x68, .convI2), (0x69, .convI4), (0x6A, .convI8), (0x6B, .convR4),
    (0x6C, .convR8), (0x6D, .convU4), (0x6E, .convU8), (0x6F, .callvirt), (0x70, .cpobj),
    (0x71, .ldobj), (0x72, .ldstr), (0x73, .newobj), (0x74, .castclass), (0x75, .isinst),
    (0x76, .convRUn), (0x79, .unbox), (0x7A, .throw), (0x7B, .ldfld), (0x7C, .ldflda),
    (0x7D, .stfld), (0x7E, .ldsfld), (0x7F, .ldsflda), (0x80, .stsfld), (0x81, .stobj),
    (0x82, .convOvfI1Un), (0x83, .convOvfI2Un), (0x84, .convOvfI4Un), (0x85, .convOvfI8Un),
    (0x86, .convOvfU1Un), (0x87, .convOvfU2Un), (0x88, .convOvfU4Un), (0x89, .convOvfU8Un),
    (0x8A, .convOvfIUn), (0x8B, .convOvfUUn), (0x8C, .box), (0x8D, .newarr),
    (0x8E, .ldlen), (0x8F, .ldelema), (0x90, .ldelemI1), (0x91, .ldelemU1),
    (0x92, .ldelemI2), (0x93, .ldelemU2), (0x94, .ldelemI4), (0x95, .ldelemU4),
    (0x96, .ldelemI8), (0x97, .ldelemI), (0x98, .ldelemR4), (0x99, .ldelemR8),
    (0x9A, .ldelemRef), (0x9B, .stelemI), (0x9C, .stelemI1), (0x9D, .stelemI2),
    (0x9E, .stelemI4), (0x9F, .stelemI8), (0xA0, .stelemR4), (0xA1, .stelemR8),
    (0xA2, .stelemRef), (0xA3, .ldelem), (0xA4, .stelem), (0xA5, .unboxAny),
    (0xB3, .convOvfI1), (0xB4, .convOvfU1), (0xB5, .convOvfI2), (0xB6, .convOvfU2),
    (0xB7, .convOvfI4), (0xB8, .convOvfU4), (0xB9, .convOvfI8), (0xBA, .convOvfU8),
    (0xC2, .refanyval), (0xC3, .ckfinite), (0xC6, .mkrefany), (0xD0, .ldtoken),
    (0xD1, .convU2), (0xD2, .convU1), (0xD3, .convI), (0xD4, .convOvfI), (0xD5, .convOvfU),
    (0xD6, .addOvf), (0xD7, .addOvfUn), (0xD8, .mulOvf), (0xD9, .mulOvfUn),
    (0xDA, .subOvf), (0xDB, .subOvfUn), (0xDC, .endfinally), (0xDD, .leave),
    (0xDE, .leaveS), (0xDF, .stindI), (0xE0, .convU)]

/-- The arms of `decode_two`. -/
def twoByte : List (UInt8 × OpCode) :=
   [(0x00, .arglist), (0x01, .ceq), (0x02, .cgt), (0x03, .cgtUn), (0x04, .clt),
    (0x05, .cltUn), (0x06, .ldftn), (0x07, .ldvirtftn), (0x09, .ldarg), (0x0A, .ldarga),
    (0x0B, .starg), (0x0C, .ldloc), (0x0D, .ldloca), (0x0E, .stloc), (0x0F, .localloc),
    (0x11, .endfilter), (0x12, .unaligned), (0x13, .volatile), (0x14, .tail),
    (0x15, .initobj), (0x16, .constrained), (0x17, .cpblk), (0x18, .initblk), (0x19, .no),
    (0x1A, .rethrow), (0x1C, .sizeof), (0x1D, .refanytype), (0x1E, .readonly)]

/-- Decodes a single-byte opcode. -/
def decodeOne (byte : UInt8) : Option OpCode := oneByte.lookup byte

/-- Decodes the second byte of a `0xFE`-escaped opcode. -/
def decodeTwo (byte : UInt8) : Option OpCode := twoByte.lookup byte

/-- Decodes an opcode from the front of `bytes`, with the number of bytes it occupies. -/
def fromBytes (bytes : List UInt8) : Result (OpCode × Nat) :=
  match bytes with
  | [] => .error (Error.new .truncated 0 cilContext)
  | first :: rest =>
      if first = 0xFE then
        match rest with
        | [] => .error (Error.new .truncated 1 cilContext)
        | second :: _ =>
            match decodeTwo second with
            | some op => .ok (op, 2)
            | none => .error (Error.new .unknownOpcode 0 cilContext)
      else
        match decodeOne first with
        | some op => .ok (op, 1)
        | none => .error (Error.new .unknownOpcode 0 cilContext)

/-! ## Macro encodings -/

/-- The general-purpose opcode a short or macro encoding stands for: `canonical_of`. -/
def canonical : OpCode → OpCode
  | .ldarg0 => .ldarg
  | .ldarg1 => .ldarg
  | .ldarg2 => .ldarg
  | .ldarg3 => .ldarg
  | .ldloc0 => .ldloc
  | .ldloc1 => .ldloc
  | .ldloc2 => .ldloc
  | .ldloc3 => .ldloc
  | .stloc0 => .stloc
  | .stloc1 => .stloc
  | .stloc2 => .stloc
  | .stloc3 => .stloc
  | .ldargS => .ldarg
  | .ldargaS => .ldarga
  | .stargS => .starg
  | .ldlocS => .ldloc
  | .ldlocaS => .ldloca
  | .stlocS => .stloc
  | .ldcI4M1 => .ldcI4
  | .ldcI40 => .ldcI4
  | .ldcI41 => .ldcI4
  | .ldcI42 => .ldcI4
  | .ldcI43 => .ldcI4
  | .ldcI44 => .ldcI4
  | .ldcI45 => .ldcI4
  | .ldcI46 => .ldcI4
  | .ldcI47 => .ldcI4
  | .ldcI48 => .ldcI4
  | .ldcI4S => .ldcI4
  | .brS => .br
  | .brfalseS => .brfalse
  | .brtrueS => .brtrue
  | .beqS => .beq
  | .bgeS => .bge
  | .bgtS => .bgt
  | .bleS => .ble
  | .bltS => .blt
  | .bneUnS => .bneUn
  | .bgeUnS => .bgeUn
  | .bgtUnS => .bgtUn
  | .bleUnS => .bleUn
  | .bltUnS => .bltUn
  | .leaveS => .leave
  | other => other

/-- The local or argument index a macro encoding implies. -/
def impliedVar : OpCode → Option UInt16
  | .ldarg0 => some 0
  | .ldarg1 => some 1
  | .ldarg2 => some 2
  | .ldarg3 => some 3
  | .ldloc0 => some 0
  | .ldloc1 => some 1
  | .ldloc2 => some 2
  | .ldloc3 => some 3
  | .stloc0 => some 0
  | .stloc1 => some 1
  | .stloc2 => some 2
  | .stloc3 => some 3
  | _ => none

/-- The constant an `ldc.i4.*` macro encoding implies. -/
def impliedI32 : OpCode → Option Int32
  | .ldcI4M1 => some (-1)
  | .ldcI40 => some 0
  | .ldcI41 => some 1
  | .ldcI42 => some 2
  | .ldcI43 => some 3
  | .ldcI44 => some 4
  | .ldcI45 => some 5
  | .ldcI46 => some 6
  | .ldcI47 => some 7
  | .ldcI48 => some 8
  | _ => none

/-! ## The tables agree -/

theorem all_getElem? (op : OpCode) : all[op.index]? = some op := by
  cases op <;> rfl

theorem mem_all (op : OpCode) : op ∈ all := List.mem_of_getElem? op.all_getElem?

/-- The encoding bytes of an opcode. -/
def bytes (op : OpCode) : List UInt8 :=
  [op.info.encoding.1, op.info.encoding.2].take op.info.size

theorem oneByte_info : ∀ p ∈ oneByte,
    p.2.info.size = 1 ∧ p.2.info.encoding.1 = p.1 ∧ p.1 ≠ 0xFE := by
  decide +kernel

theorem twoByte_info : ∀ p ∈ twoByte, p.2.info.size = 2 ∧ p.2.info.encoding = (0xFE, p.1) := by
  decide +kernel

/-- The two tables list the opcodes in order. -/
theorem tables_eq_all : oneByte.map Prod.snd ++ twoByte.map Prod.snd = all := by
  decide +kernel

theorem oneByte_sorted : (oneByte.map (·.1.toNat)).Pairwise (· < ·) := by
  rw [← List.isChain_iff_pairwise]
  decide +kernel

theorem twoByte_sorted : (twoByte.map (·.1.toNat)).Pairwise (· < ·) := by
  rw [← List.isChain_iff_pairwise]
  decide +kernel

/-- In a table whose keys increase, the first entry of a key is its only one. -/
theorem lookup_of_mem {table : List (UInt8 × OpCode)}
    (hsorted : (table.map (·.1.toNat)).Pairwise (· < ·)) {entry : UInt8 × OpCode}
    (h : entry ∈ table) : table.lookup entry.1 = some entry.2 := by
  induction table with
  | nil => exact absurd h List.not_mem_nil
  | cons first rest ih =>
      obtain ⟨hfirst, hrest⟩ := List.pairwise_cons.mp hsorted
      rw [List.forall_mem_map] at hfirst
      rcases List.mem_cons.mp h with rfl | hmem
      · exact List.lookup_cons_self
      · have hne : (entry.1 == first.1) = false := by
          refine beq_eq_false_iff_ne.mpr fun heq => ?_
          have hlt := hfirst entry hmem
          rw [heq] at hlt
          exact Nat.lt_irrefl _ hlt
        rw [List.lookup_cons, hne]
        exact ih hrest hmem

/-- Every opcode is found again from its own encoding. -/
theorem decode_encoding (op : OpCode) :
    (op.info.size = 1 ∧ op.info.encoding.1 ≠ 0xFE ∧ decodeOne op.info.encoding.1 = some op) ∨
      (op.info.size = 2 ∧ op.info.encoding.1 = 0xFE ∧
        decodeTwo op.info.encoding.2 = some op) := by
  have hmem := op.mem_all
  rw [← tables_eq_all, List.mem_append] at hmem
  rcases hmem with hone | htwo
  · obtain ⟨entry, hentry, rfl⟩ := List.mem_map.mp hone
    obtain ⟨hsize, hbyte, hescape⟩ := oneByte_info entry hentry
    rw [hbyte]
    exact .inl ⟨hsize, hescape, lookup_of_mem oneByte_sorted hentry⟩
  · obtain ⟨entry, hentry, rfl⟩ := List.mem_map.mp htwo
    obtain ⟨hsize, hencoding⟩ := twoByte_info entry hentry
    rw [hencoding]
    exact .inr ⟨hsize, rfl, lookup_of_mem twoByte_sorted hentry⟩

theorem mem_of_lookup {byte : UInt8} {op : OpCode} {table : List (UInt8 × OpCode)}
    (h : table.lookup byte = some op) : (byte, op) ∈ table := by
  obtain ⟨before, after, rfl, _⟩ := List.lookup_eq_some_iff.mp h
  simp

@[simp] theorem bytes_length (op : OpCode) : op.bytes.length = op.info.size := by
  rcases op.decode_encoding with ⟨hsize, _⟩ | ⟨hsize, _⟩ <;> simp [bytes, hsize]

theorem size_pos (op : OpCode) : 1 ≤ op.info.size := by
  rcases op.decode_encoding with ⟨hsize, _⟩ | ⟨hsize, _⟩ <;> omega

/-- An encoding at the front of the bytes is decoded. -/
theorem fromBytes_append (op : OpCode) (tl : List UInt8) :
    fromBytes (op.bytes ++ tl) = .ok (op, op.info.size) := by
  rcases op.decode_encoding with ⟨hsize, hfirst, hdecode⟩ | ⟨hsize, hfirst, hdecode⟩
  · simp [fromBytes, bytes, hsize, hfirst, hdecode]
  · simp [fromBytes, bytes, hsize, hfirst, hdecode]

/-- Only encodings are decoded. -/
theorem fromBytes_ok {bytes : List UInt8} {op : OpCode} {n : Nat}
    (h : fromBytes bytes = .ok (op, n)) : n = op.info.size ∧ ∃ tl, bytes = op.bytes ++ tl := by
  unfold fromBytes at h
  split at h
  · cases h
  · rename_i first rest
    split at h
    · rename_i hescape
      split at h
      · cases h
      · rename_i second tl
        split at h
        · rename_i found hfound
          cases h
          obtain ⟨hsize, hencoding⟩ := twoByte_info _ (mem_of_lookup hfound)
          simp only at hsize hencoding
          exact ⟨hsize.symm, tl, by simp [OpCode.bytes, hsize, hencoding, hescape]⟩
        · cases h
    · split at h
      · rename_i found hfound
        cases h
        obtain ⟨hsize, hencoding, _⟩ := oneByte_info _ (mem_of_lookup hfound)
        simp only at hsize hencoding
        exact ⟨hsize.symm, rest, by simp [OpCode.bytes, hsize, hencoding]⟩
      · cases h

end OpCode

end Cildec
