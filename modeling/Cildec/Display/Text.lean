import Cildec.Metadata.Parse
import Cildec.Signature.Types

/-!
# The fixed texts of a name (`src/display.rs`)

The pieces of a rendered name that refer to no other row: qualified names, the shape of an
array, the words of a method signature and the fallback of a token that cannot be resolved.
-/

namespace Cildec

/-- `[..].join(separator)`. -/
def joined (separator : String) : List String → String
  | [] => ""
  | [part] => part
  | part :: next :: parts => part ++ separator ++ joined separator (next :: parts)

/-- The last hexadecimal digits of a number, with zeros in front of them up to `width`. -/
def hexPadded (width n : Nat) : String :=
  let digits := Nat.toDigits 16 n
  String.ofList (List.replicate (width - digits.length) '0' ++ digits)

/-- `Display` of a token. -/
def Token.display (token : Token) : String := "0x" ++ hexPadded 8 token.value.toNat

/-- What a token that cannot be resolved renders as. -/
def Token.fallback (token : Token) : String :=
  match token.table with
  | some table => table.name ++ "[" ++ toString token.rid ++ "]"
  | none => token.display

/-- The RID is zero. -/
def Token.isNull (token : Token) : Bool := token.rid == 0

def qualify (namespace_ name : String) : String :=
  if namespace_.isEmpty then name else namespace_ ++ "." ++ name

/-- One dimension of an array. -/
def dimensionString (lo : Option Int) (size : Option Nat) : String :=
  match lo, size with
  | some lo, some size => toString lo ++ "..." ++ toString (lo + (size : Int) - 1)
  | some lo, none => toString lo ++ "..."
  | none, some size => toString size
  | none, none => ""

def shapeString (shape : ArrayShape) : String :=
  "[" ++ joined "," ((List.range shape.rank).map fun dimension =>
    dimensionString shape.loBounds[dimension]? shape.sizes[dimension]?) ++ "]"

/-- How a type that names nothing renders: `type_` of the element types that stand alone. -/
def SigType.keyword : SigType → String
  | .void => "void"
  | .boolean => "bool"
  | .char => "char"
  | .i1 => "int8"
  | .u1 => "uint8"
  | .i2 => "int16"
  | .u2 => "uint16"
  | .i4 => "int32"
  | .u4 => "uint32"
  | .i8 => "int64"
  | .u8 => "uint64"
  | .r4 => "float32"
  | .r8 => "float64"
  | .string => "string"
  | .object => "object"
  | .typedByRef => "typedref"
  | .intPtr => "native int"
  | .uintPtr => "native uint"
  | .var index => "!" ++ toString index
  | .mvar index => "!!" ++ toString index
  | .sentinel => "..."
  | .internal handle => "internal(0x" ++ String.ofList (Nat.toDigits 16 handle) ++ ")"
  | _ => ""

/-- The words a method signature starts with. -/
def CallConv.keyword : CallConv → String
  | .default | .generic _ => ""
  | .varArg => "vararg "
  | .c => "unmanaged cdecl "
  | .stdCall => "unmanaged stdcall "
  | .thisCall => "unmanaged thiscall "
  | .fastCall => "unmanaged fastcall "
  | .unmanaged => "unmanaged "
  | .nativeVarArg => "unmanaged vararg "
  | .field => "field "
  | .localSig => "locals "
  | .property => "property "
  | .genericInst => "generic "

/-- The count of generic parameters behind a method's name. -/
def CallConv.suffix : CallConv → String
  | .generic count => "<" ++ toString count ++ ">"
  | _ => ""

def MethodSig.prefixWords (sig : MethodSig) : String :=
  (if sig.hasThis then "instance " else "") ++ (if sig.explicitThis then "explicit " else "") ++
    sig.callingConvention.keyword

def CustomMod.keyword (mod : CustomMod) : String := if mod.required then "modreq" else "modopt"

end Cildec
