import Cildec.Signature.Entry

/-!
# Signatures as the standard writes them (ECMA-335 II.23.2)

The encoding of a signature, and the normal form of the values the parser returns: the
source has no encoder.

* `SigType.enc`, `MethodSig.enc`, …: the encodings;
* `SigType.Normal`, `MethodSig.Normal`, …: the normal forms;
* `SigType.depth`: what the recursion limit bounds.
-/

namespace Cildec

open Wire Cildec.Parser

/-! ## Encodings -/

/-- The tag of a type token. -/
def Token.typeTag (token : Token) : Nat :=
  match token.table with
  | some .typeDef => 0
  | some .typeRef => 1
  | some .typeSpec => 2
  | _ => 3

/-- `TypeDefOrRefOrSpecEncoded`. -/
def Token.typeBytes (token : Token) : List UInt8 :=
  Compressed.bytes (token.rid * 4 + token.typeTag)

def CustomMod.enc (mod : CustomMod) : List UInt8 :=
  (if mod.required then ElementType.cmodReqd else ElementType.cmodOpt) :: mod.typeToken.typeBytes

def ArrayShape.enc (shape : ArrayShape) : List UInt8 :=
  Compressed.bytes shape.rank ++
    (Compressed.bytes shape.sizes.length ++ shape.sizes.flatMap Compressed.bytes ++
      (Compressed.bytes shape.loBounds.length ++ shape.loBounds.flatMap Compressed.signedBytes))

/-- The low bits of a method signature's first byte. -/
def CallConv.code : CallConv → UInt8
  | .default => 0x00
  | .c => 0x01
  | .stdCall => 0x02
  | .thisCall => 0x03
  | .fastCall => 0x04
  | .varArg => 0x05
  | .field => 0x06
  | .localSig => 0x07
  | .property => 0x08
  | .unmanaged => 0x09
  | .genericInst => 0x0A
  | .nativeVarArg => 0x0B
  | .generic _ => CallingConvention.generic

/-- The first byte of a method signature. -/
def methodByte (convention : CallConv) (hasThis explicitThis : Bool) : UInt8 :=
  convention.code ||| (if hasThis then CallingConvention.hasThis else 0) |||
    (if explicitThis then CallingConvention.explicitThis else 0)

/-- The first byte, and the generic parameter count where there is one. -/
def methodHeaderBytes (convention : CallConv) (hasThis explicitThis : Bool) : List UInt8 :=
  methodByte convention hasThis explicitThis ::
    match convention with
    | .generic count => Compressed.bytes count
    | _ => []

/-- The element type byte of a type that is not `Modified`. -/
def SigType.code : SigType → UInt8
  | .void => 0x01
  | .boolean => 0x02
  | .char => 0x03
  | .i1 => 0x04
  | .u1 => 0x05
  | .i2 => 0x06
  | .u2 => 0x07
  | .i4 => 0x08
  | .u4 => 0x09
  | .i8 => 0x0A
  | .u8 => 0x0B
  | .r4 => 0x0C
  | .r8 => 0x0D
  | .string => 0x0E
  | .object => 0x1C
  | .typedByRef => ElementType.typedByRef
  | .intPtr => 0x18
  | .uintPtr => 0x19
  | .ptr .. => ElementType.ptr
  | .byRef _ => ElementType.byRef
  | .valueType _ => ElementType.valueType
  | .class_ _ => ElementType.class_
  | .var _ => ElementType.var
  | .mvar _ => ElementType.mvar
  | .array .. => ElementType.array
  | .szArray .. => ElementType.szArray
  | .genericInst .. => ElementType.genericInst
  | .fnPtr _ => ElementType.fnPtr
  | .modified .. => ElementType.cmodOpt
  | .pinned _ => ElementType.pinned
  | .sentinel => ElementType.sentinel
  | .internal _ => ElementType.internal

mutual

/-- A type: its modifiers, or its element type byte and what follows it. -/
def SigType.enc : SigType → List UInt8
  | .modified mods inner => mods.flatMap CustomMod.enc ++ inner.enc
  | .ptr mods inner => ElementType.ptr :: (mods.flatMap CustomMod.enc ++ inner.enc)
  | .byRef inner => ElementType.byRef :: inner.enc
  | .valueType token => ElementType.valueType :: token.typeBytes
  | .class_ token => ElementType.class_ :: token.typeBytes
  | .var index => ElementType.var :: Compressed.bytes index
  | .mvar index => ElementType.mvar :: Compressed.bytes index
  | .array element shape => ElementType.array :: (element.enc ++ shape.enc)
  | .szArray mods element =>
      ElementType.szArray :: (mods.flatMap CustomMod.enc ++ element.enc)
  | .genericInst isValueType definition args =>
      ElementType.genericInst ::
        ([if isValueType then ElementType.valueType else ElementType.class_] ++
          (definition.typeBytes ++ (Compressed.bytes args.length ++ SigType.encAll args)))
  | .fnPtr method => ElementType.fnPtr :: method.enc
  | .pinned inner => ElementType.pinned :: inner.enc
  | primitive => [primitive.code]

def SigType.encAll : List SigType → List UInt8
  | [] => []
  | ty :: tys => ty.enc ++ SigType.encAll tys

def Param.enc : Param → List UInt8
  | ⟨mods, byRef, ty⟩ =>
      mods.flatMap CustomMod.enc ++ ((if byRef then [ElementType.byRef] else []) ++ ty.enc)

def Param.encAll : List Param → List UInt8
  | [] => []
  | param :: params => param.enc ++ Param.encAll params

/-- A method: the sentinel stands between the two parameter lists. -/
def MethodSig.enc : MethodSig → List UInt8
  | ⟨_, convention, hasThis, explicitThis, returnType, params, varargParams⟩ =>
      methodHeaderBytes convention hasThis explicitThis ++
        (Compressed.bytes (params.length + varargParams.length) ++
          (returnType.enc ++ (Param.encAll params ++
            ((if varargParams.isEmpty then [] else [ElementType.sentinel]) ++
              Param.encAll varargParams))))

end

def FieldSig.enc (sig : FieldSig) : List UInt8 :=
  CallingConvention.field :: (sig.customMods.flatMap CustomMod.enc ++ sig.type_.enc)

/-- A local: `before` of its modifiers stand in front of `PINNED`. -/
def LocalVar.enc (before : Nat) (l : LocalVar) : List UInt8 :=
  (if l.pinned then
    (l.customMods.take before).flatMap CustomMod.enc ++
      (ElementType.pinned :: (l.customMods.drop before).flatMap CustomMod.enc)
  else l.customMods.flatMap CustomMod.enc) ++
    ((if l.byRef then [ElementType.byRef] else []) ++ l.type_.enc)

/-- Locals one after another, each with its own split. -/
def LocalVar.encAll (before : Nat → Nat) : List LocalVar → List UInt8
  | [] => []
  | l :: ls => l.enc (before 0) ++ LocalVar.encAll (fun slot => before (slot + 1)) ls

def LocalVarSig.enc (before : Nat → Nat) (sig : LocalVarSig) : List UInt8 :=
  CallingConvention.localSig ::
    (Compressed.bytes sig.locals.length ++ LocalVar.encAll before sig.locals)

def PropertySig.enc (sig : PropertySig) : List UInt8 :=
  (CallingConvention.property ||| (if sig.hasThis then CallingConvention.hasThis else 0)) ::
    (Compressed.bytes sig.params.length ++ (sig.returnType.enc ++ Param.encAll sig.params))

def MethodSpecSig.enc (sig : MethodSpecSig) : List UInt8 :=
  CallingConvention.genericInst ::
    (Compressed.bytes sig.args.length ++ SigType.encAll sig.args)

def TypeSpecSig.enc (sig : TypeSpecSig) : List UInt8 := sig.type_.enc

/-! ## Normal forms -/

/-- A token of a table that types can come from. -/
def Token.IsType (token : Token) : Prop :=
  token.table = some .typeDef ∨ token.table = some .typeRef ∨ token.table = some .typeSpec

/-- At most `limit` modifiers. -/
def NormalMods (limit : Nat) (mods : List CustomMod) : Prop :=
  mods.length ≤ limit ∧ ∀ mod ∈ mods, mod.typeToken.IsType

/-- Values in range, and a rank the shape's own bytes make room for. -/
structure ArrayShape.Normal (shape : ArrayShape) : Prop where
  rank_le : shape.rank ≤ Compressed.maxCompressedU32
  sizes_length : shape.sizes.length ≤ Compressed.maxCompressedU32
  sizes_le : ∀ size ∈ shape.sizes, size ≤ Compressed.maxCompressedU32
  loBounds_length : shape.loBounds.length ≤ Compressed.maxCompressedU32
  loBounds_range : ∀ bound ∈ shape.loBounds, -0x10000000 ≤ bound ∧ bound < 0x10000000
  rank_room : shape.rank ≤ shape.sizes.length + shape.loBounds.length + 3

def SigType.isModified : SigType → Bool
  | .modified .. => true
  | _ => false

def SigType.isByRef : SigType → Bool
  | .byRef _ => true
  | _ => false

/-- A convention that a method signature can have. -/
def CallConv.IsMethod : CallConv → Prop
  | .generic count => count ≤ Compressed.maxCompressedU32
  | .field | .localSig | .property | .genericInst => False
  | _ => True

mutual

/-- A type as the parser returns it, below a `PINNED` or not. -/
def SigType.Normal (limit : Nat) (seen : Bool) : SigType → Prop
  | .modified mods inner =>
      mods ≠ [] ∧ NormalMods limit mods ∧ inner.isModified = false ∧ inner.Normal limit seen
  | .ptr mods inner =>
      NormalMods limit mods ∧ inner.isModified = false ∧ inner.Normal limit seen
  | .byRef inner => inner.Normal limit seen
  | .valueType token => token.IsType
  | .class_ token => token.IsType
  | .var index => index ≤ Compressed.maxCompressedU32
  | .mvar index => index ≤ Compressed.maxCompressedU32
  | .array element shape => element.Normal limit seen ∧ shape.Normal
  | .szArray mods element =>
      NormalMods limit mods ∧ element.isModified = false ∧ element.Normal limit seen
  | .genericInst _ definition args =>
      definition.IsType ∧ args.length ≤ Compressed.maxCompressedU32 ∧
        SigType.NormalAll limit seen args
  | .fnPtr method => method.Normal limit seen
  | .pinned inner => seen = false ∧ inner.Normal limit true
  | .sentinel => False
  | .internal _ => False
  | _ => True

def SigType.NormalAll (limit : Nat) (seen : Bool) : List SigType → Prop
  | [] => True
  | ty :: tys => ty.Normal limit seen ∧ SigType.NormalAll limit seen tys

def Param.Normal (limit : Nat) (seen : Bool) : Param → Prop
  | ⟨mods, byRef, ty⟩ =>
      NormalMods limit mods ∧
        (byRef = false → ty.isByRef = false ∧ ty.isModified = false) ∧ ty.Normal limit seen

def Param.NormalAll (limit : Nat) (seen : Bool) : List Param → Prop
  | [] => True
  | param :: params => param.Normal limit seen ∧ Param.NormalAll limit seen params

/-- A method keeps the bytes it was read from. -/
def MethodSig.Normal (limit : Nat) (seen : Bool) : MethodSig → Prop
  | ⟨raw, convention, hasThis, explicitThis, returnType, params, varargParams⟩ =>
      convention.IsMethod ∧
        params.length + varargParams.length ≤ Compressed.maxCompressedU32 ∧
        returnType.Normal limit seen ∧ Param.NormalAll limit seen params ∧
        Param.NormalAll limit seen varargParams ∧
        raw = MethodSig.enc
          ⟨raw, convention, hasThis, explicitThis, returnType, params, varargParams⟩

end

mutual

/-- The nesting depth, with one level for each type and each method signature. -/
def SigType.depth : SigType → Nat
  | .modified _ inner => inner.depth + 1
  | .ptr _ inner => inner.depth + 1
  | .byRef inner => inner.depth + 1
  | .array element _ => element.depth + 1
  | .szArray _ element => element.depth + 1
  | .genericInst _ _ args => SigType.depthAll args + 1
  | .fnPtr method => method.depth + 1
  | .pinned inner => inner.depth + 1
  | _ => 1

def SigType.depthAll : List SigType → Nat
  | [] => 0
  | ty :: tys => max ty.depth (SigType.depthAll tys)

def Param.depth : Param → Nat
  | ⟨_, _, ty⟩ => ty.depth

def Param.depthAll : List Param → Nat
  | [] => 0
  | param :: params => max param.depth (Param.depthAll params)

def MethodSig.depth : MethodSig → Nat
  | ⟨_, _, _, _, returnType, params, varargParams⟩ =>
      max returnType.depth (max (Param.depthAll params) (Param.depthAll varargParams)) + 1

end

def FieldSig.Normal (limit : Nat) (sig : FieldSig) : Prop :=
  NormalMods limit sig.customMods ∧ sig.type_.isModified = false ∧ sig.type_.Normal limit false ∧
    sig.type_.depth ≤ limit

def LocalVar.Normal (limit : Nat) (l : LocalVar) : Prop :=
  NormalMods limit l.customMods ∧
    (l.byRef = false → l.type_.isByRef = false ∧ l.type_.isModified = false) ∧
    l.type_.isPinned = false ∧ l.type_.Normal limit false ∧ l.type_.depth ≤ limit

def LocalVarSig.Normal (limit : Nat) (sig : LocalVarSig) : Prop :=
  sig.locals.length ≤ Compressed.maxCompressedU32 ∧ ∀ l ∈ sig.locals, l.Normal limit

def PropertySig.Normal (limit : Nat) (sig : PropertySig) : Prop :=
  sig.params.length ≤ Compressed.maxCompressedU32 ∧
    ∀ param ∈ sig.returnType :: sig.params, param.Normal limit false ∧ param.depth ≤ limit

def MethodSpecSig.Normal (limit : Nat) (sig : MethodSpecSig) : Prop :=
  sig.args.length ≤ Compressed.maxCompressedU32 ∧
    ∀ ty ∈ sig.args, ty.Normal limit false ∧ ty.depth ≤ limit

def TypeSpecSig.Normal (limit : Nat) (sig : TypeSpecSig) : Prop :=
  sig.type_.Normal limit false ∧ sig.type_.depth ≤ limit

end Cildec
