import Cildec.Token

/-!
# Signature types (`src/signature.rs`)

The values the signature parsers return. A compressed value is a `Nat` or an `Int`;
`raw` is the list of bytes the source borrows.
-/

namespace Cildec

/-- Knobs for the signature parsers. -/
structure SignatureOptions where
  recursionLimit : UInt32
  deriving DecidableEq, Repr

namespace SignatureOptions

/-- The limit as a number. -/
def limit (options : SignatureOptions) : Nat := options.recursionLimit.toNat

def default : SignatureOptions := ⟨64⟩

end SignatureOptions

/-- A `modreq` or `modopt` custom modifier. -/
structure CustomMod where
  required : Bool
  typeToken : Token
  deriving DecidableEq, Repr

/-- The shape of a multi-dimensional array. -/
structure ArrayShape where
  rank : Nat
  sizes : List Nat
  loBounds : List Int
  deriving DecidableEq, Repr

/-- A calling convention. -/
inductive CallConv where
  | default | varArg | generic (count : Nat) | c | stdCall | thisCall | fastCall
  | unmanaged | nativeVarArg | field | localSig | property | genericInst
  deriving DecidableEq, Repr

mutual

/-- A decoded type signature (`Type`). -/
inductive SigType where
  | void | boolean | char | i1 | u1 | i2 | u2 | i4 | u4 | i8 | u8 | r4 | r8
  | string | object | typedByRef | intPtr | uintPtr
  | ptr (mods : List CustomMod) (inner : SigType)
  | byRef (inner : SigType)
  | valueType (token : Token)
  | class_ (token : Token)
  | var (index : Nat)
  | mvar (index : Nat)
  | array (element : SigType) (shape : ArrayShape)
  | szArray (mods : List CustomMod) (element : SigType)
  | genericInst (isValueType : Bool) (definition : Token) (args : List SigType)
  | fnPtr (method : MethodSig)
  | modified (mods : List CustomMod) (inner : SigType)
  | pinned (inner : SigType)
  | sentinel
  | internal (handle : Nat)

/-- A parameter or return type, with its custom modifiers. -/
structure Param where
  customMods : List CustomMod
  byRef : Bool
  type_ : SigType

/-- A `MethodDefSig`, `MethodRefSig` or `StandAloneMethodSig`. -/
structure MethodSig where
  raw : List UInt8
  callingConvention : CallConv
  hasThis : Bool
  explicitThis : Bool
  returnType : Param
  params : List Param
  varargParams : List Param

end

def SigType.isPinned : SigType → Bool
  | .pinned _ => true
  | _ => false

/-- The total number of parameters, including varargs. -/
def MethodSig.paramCount (m : MethodSig) : Nat := m.params.length + m.varargParams.length

structure FieldSig where
  raw : List UInt8
  customMods : List CustomMod
  type_ : SigType

/-- One entry of a `LocalVarSig`. -/
structure LocalVar where
  customMods : List CustomMod
  pinned : Bool
  byRef : Bool
  type_ : SigType

structure LocalVarSig where
  raw : List UInt8
  locals : List LocalVar

structure PropertySig where
  raw : List UInt8
  hasThis : Bool
  returnType : Param
  params : List Param

/-- The type arguments of a generic method instantiation. -/
structure MethodSpecSig where
  raw : List UInt8
  args : List SigType

structure TypeSpecSig where
  raw : List UInt8
  type_ : SigType

/-! ## `ELEMENT_TYPE_*` -/

namespace ElementType

def void : UInt8 := 0x01
def ptr : UInt8 := 0x0F
def byRef : UInt8 := 0x10
def valueType : UInt8 := 0x11
def class_ : UInt8 := 0x12
def var : UInt8 := 0x13
def array : UInt8 := 0x14
def genericInst : UInt8 := 0x15
def typedByRef : UInt8 := 0x16
def fnPtr : UInt8 := 0x1B
def szArray : UInt8 := 0x1D
def mvar : UInt8 := 0x1E
def cmodReqd : UInt8 := 0x1F
def cmodOpt : UInt8 := 0x20
def internal : UInt8 := 0x21
def sentinel : UInt8 := 0x41
def pinned : UInt8 := 0x45

end ElementType

/-- The element types that stand alone. -/
def SigType.primitive? (byte : UInt8) : Option SigType :=
  match byte with
  | 0x01 => some .void
  | 0x02 => some .boolean
  | 0x03 => some .char
  | 0x04 => some .i1
  | 0x05 => some .u1
  | 0x06 => some .i2
  | 0x07 => some .u2
  | 0x08 => some .i4
  | 0x09 => some .u4
  | 0x0A => some .i8
  | 0x0B => some .u8
  | 0x0C => some .r4
  | 0x0D => some .r8
  | 0x0E => some .string
  | 0x1C => some .object
  | 0x16 => some .typedByRef
  | 0x18 => some .intPtr
  | 0x19 => some .uintPtr
  | _ => none

/-! ## Calling conventions -/

namespace CallingConvention

def field : UInt8 := 0x06
def localSig : UInt8 := 0x07
def property : UInt8 := 0x08
def genericInst : UInt8 := 0x0A
def mask : UInt8 := 0x0F
def generic : UInt8 := 0x10
def hasThis : UInt8 := 0x20
def explicitThis : UInt8 := 0x40

end CallingConvention

/-- The convention of a method signature's first byte, with the generic parameter count
that followed it. -/
def CallConv.ofByte? (byte : UInt8) (genericCount : Nat) : Option CallConv :=
  match byte &&& CallingConvention.mask with
  | 0x00 => some (if byte &&& CallingConvention.generic ≠ 0 then .generic genericCount
      else .default)
  | 0x01 => some .c
  | 0x02 => some .stdCall
  | 0x03 => some .thisCall
  | 0x04 => some .fastCall
  | 0x05 => some .varArg
  | 0x09 => some .unmanaged
  | 0x0B => some .nativeVarArg
  | _ => none

end Cildec
