import Cildec.Compressed
import Cildec.Lib.Run
import Cildec.Signature.Types

/-!
# The recursive-descent signature parser (`src/signature.rs`)

A `Parser` is the state of the source's `Parser`; its methods are computations over it.
The two methods that call each other, `type_` and `method_sig`, recurse on the depth that
is left: `enter` fails at the point where it runs out, so the recursion ends where the
source's does.
-/

namespace Cildec

open Wire

/-- The recursive-descent signature parser. -/
structure Parser where
  data : List UInt8
  pos : Nat
  depth : Nat
  options : SignatureOptions
  pinnedSeen : Bool

/-- A fallible method on `&mut Parser`. -/
abbrev Parse := EStateM Error Parser

namespace Parser

def new (data : List UInt8) (options : SignatureOptions) : Parser := ⟨data, 0, 0, options, false⟩

def context : String := "signature"

def err (p : Parser) (kind : ErrorKind) : Error := Error.new kind p.pos context

def errAt (kind : ErrorKind) (pos : Nat) : Error := Error.new kind pos context

/-- The unread bytes. -/
def rest (p : Parser) : List UInt8 := p.data.drop p.pos

def remaining (p : Parser) : Nat := p.data.length - p.pos

/-- The parser `n` bytes further on. -/
def advance (n : Nat) (p : Parser) : Parser := { p with pos := p.pos + n }

def position : Parse Nat := do
  let p ← get
  return p.pos

def u8 : Parse UInt8 := do
  let p ← get
  match p.rest with
  | byte :: _ =>
      set (p.advance 1)
      return byte
  | [] => throw (p.err .truncated)

def peek : Parse UInt8 := do
  let p ← get
  match p.rest with
  | byte :: _ => return byte
  | [] => throw (p.err .truncated)

/-- A compressed integer, read by `read`. -/
def compressed (read : List UInt8 → Result (α × Nat)) : Parse α := do
  let p ← get
  match read p.rest with
  | .ok (value, used) =>
      set (p.advance used)
      return value
  | .error e => throw (e.rebase p.pos)

def cu32 : Parse Nat := compressed Compressed.readU32

def ci32 : Parse Int := compressed Compressed.readI32

/-- A count that cannot exceed the number of bytes left. -/
def boundedCount : Parse Nat := do
  let start ← position
  let count ← cu32
  let p ← get
  if count ≤ p.remaining then
    return count
  else
    throw (errAt .malformed start)

/-- A bounded count and that many items. -/
def counted (item : Parse α) : Parse (List α) := do
  let count ← boundedCount
  repeatM item count

def expectConvention (expected : UInt8) : Parse UInt8 := do
  let start ← position
  let byte ← u8
  check (byte &&& CallingConvention.mask = expected) (errAt .malformed start)
  return byte

/-- The table a `TypeDefOrRefOrSpecEncoded` tag selects. -/
def typeTokenTable? (tag : Nat) : Option TableId :=
  match tag with
  | 0 => some .typeDef
  | 1 => some .typeRef
  | 2 => some .typeSpec
  | _ => none

/-- The token a compressed value stands for: the tag is in its low two bits. -/
def typeTokenOf? (value : Nat) : Option Token :=
  (typeTokenTable? (value &&& 0x03)).map fun table => Token.new table (value >>> 2)

/-- `TypeDefOrRefOrSpecEncoded` (II.23.2.8). -/
def typeToken : Parse Token := do
  let start ← position
  let value ← cu32
  orFail (typeTokenOf? value) (errAt .malformed start)

/-- Whether a modifier byte makes the modifier required. -/
def modKind? (byte : UInt8) : Option Bool :=
  if byte = ElementType.cmodReqd then some true
  else if byte = ElementType.cmodOpt then some false
  else none

/-- Steps over a modifier byte, if one comes next. -/
def nextMod : Parse (Option Bool) := do
  let p ← get
  match p.rest.head?.bind modKind? with
  | some required =>
      set (p.advance 1)
      return some required
  | none => return none

/-- One round of the loop of `custom_mods`; `more` reads the modifiers after this one. -/
def modsRound (more : Parse (List CustomMod)) : Parse (List CustomMod) := do
  match ← nextMod with
  | none => return []
  | some required =>
      let token ← typeToken
      let mods ← more
      return ⟨required, token⟩ :: mods

/-- The loop when the list may still grow by a number of modifiers. -/
def customModsFrom : Nat → Parse (List CustomMod)
  | 0 => modsRound do
      let p ← get
      throw (p.err .recursionLimit)
  | n + 1 => modsRound (customModsFrom n)

def customMods : Parse (List CustomMod) := do
  let p ← get
  customModsFrom p.options.limit

/-- Steps over `code`, if it comes next. -/
def takeIf (code : UInt8) : Parse Bool := do
  let byte ← peek
  if byte = code then
    modify (advance 1)
    return true
  else
    return false

/-! ## Nesting -/

/-- Runs `inner` and then `reset`, also when `inner` fails. -/
def resetting (reset : Parser → Parser) (inner : Parse α) : Parse α := fun p =>
  match inner.run p with
  | .ok a p' => .ok a (reset p')
  | .error e p' => .error e (reset p')

def enter : Parse Unit := do
  modify fun p => { p with depth := p.depth + 1 }
  let p ← get
  if p.depth ≤ p.options.limit then
    return ()
  else
    throw (p.err .recursionLimit)

def leave (p : Parser) : Parser := { p with depth := p.depth - 1 }

/-- One level of nesting. -/
def nested (inner : Parse α) : Parse α := do
  enter
  resetting leave inner

def setPinned (seen : Bool) (p : Parser) : Parser := { p with pinnedSeen := seen }

/-! ## Types -/

def checkRank (rank : Nat) : Parse Unit := do
  let p ← get
  if rank ≤ p.remaining + 1 then
    return ()
  else
    throw (p.err .malformed)

def arrayShape : Parse ArrayShape := do
  let rank ← cu32
  checkRank rank
  let sizes ← counted cu32
  let loBounds ← counted ci32
  return ⟨rank, sizes, loBounds⟩

/-- Whether a generic definition's kind byte says that it is a value type. -/
def genericKindOf? (kind : UInt8) : Option Bool :=
  if kind = ElementType.valueType then some true
  else if kind = ElementType.class_ then some false
  else none

/-- `CLASS` or `VALUETYPE` in a generic instantiation. -/
def genericKind : Parse Bool := do
  let start ← position
  let kind ← u8
  orFail (genericKindOf? kind) (errAt .malformed start)

def pinnedType (type_ : Parse SigType) (start : Nat) : Parse SigType := do
  let p ← get
  if p.pinnedSeen then
    throw (errAt .malformed start)
  else
    modify (setPinned true)
    let inner ← resetting (setPinned false) type_
    return .pinned inner

/-- What follows the element type byte that stood at `start`. -/
def typeBody (type_ : Parse SigType) (methodSig : Parse MethodSig) (start : Nat) (byte : UInt8) :
    Parse SigType :=
  match SigType.primitive? byte with
  | some primitive => return primitive
  | none =>
      if byte = ElementType.ptr then do
        let mods ← customMods
        let inner ← type_
        return .ptr mods inner
      else if byte = ElementType.byRef then do
        let inner ← type_
        return .byRef inner
      else if byte = ElementType.valueType then do
        let token ← typeToken
        return .valueType token
      else if byte = ElementType.class_ then do
        let token ← typeToken
        return .class_ token
      else if byte = ElementType.var then do
        let index ← cu32
        return .var index
      else if byte = ElementType.mvar then do
        let index ← cu32
        return .mvar index
      else if byte = ElementType.szArray then do
        let mods ← customMods
        let element ← type_
        return .szArray mods element
      else if byte = ElementType.array then do
        let element ← type_
        let shape ← arrayShape
        return .array element shape
      else if byte = ElementType.genericInst then do
        let isValueType ← genericKind
        let definition ← typeToken
        let args ← counted type_
        return .genericInst isValueType definition args
      else if byte = ElementType.fnPtr then do
        let method ← methodSig
        return .fnPtr method
      else if byte = ElementType.pinned then
        pinnedType type_ start
      else if byte = ElementType.internal then
        throw (errAt .unsupported start)
      else
        throw (errAt .malformed start)

/-- An element type byte and what follows it. -/
def plainType (type_ : Parse SigType) (methodSig : Parse MethodSig) : Parse SigType := do
  let start ← position
  let byte ← u8
  typeBody type_ methodSig start byte

def typeInner (type_ : Parse SigType) (methodSig : Parse MethodSig) : Parse SigType := do
  let leading ← customMods
  if leading.isEmpty then
    plainType type_ methodSig
  else
    let inner ← type_
    return .modified leading inner

/-! ## Parameters and methods -/

def param (type_ : Parse SigType) : Parse Param := do
  let mods ← customMods
  let byRef ← takeIf ElementType.byRef
  let ty ← type_
  return ⟨mods, byRef, ty⟩

/-- The modifiers after `PINNED`. -/
def modsIf (pinned : Bool) : Parse (List CustomMod) :=
  if pinned then customMods else pure []

/-- A local that is not the bare `TYPEDBYREF`. -/
def plainLocal (type_ : Parse SigType) : Parse LocalVar := do
  let mods ← customMods
  let pinned ← takeIf ElementType.pinned
  let more ← modsIf pinned
  let byRef ← takeIf ElementType.byRef
  let ty ← type_
  let p ← get
  check (ty.isPinned = false) (p.err .malformed)
  return ⟨mods ++ more, pinned, byRef, ty⟩

def localVar (type_ : Parse SigType) : Parse LocalVar := do
  -- `TYPEDBYREF` stands alone, without modifiers or `BYREF`
  if ← takeIf ElementType.typedByRef then
    return ⟨[], false, false, .typedByRef⟩
  else
    plainLocal type_

/-- What the first byte of a method signature says. -/
structure MethodHeader where
  callingConvention : CallConv
  hasThis : Bool
  explicitThis : Bool

def methodHeaderOf? (byte : UInt8) (genericCount : Nat) : Option MethodHeader :=
  (CallConv.ofByte? byte genericCount).map fun convention =>
    { callingConvention := convention
      hasThis := byte &&& CallingConvention.hasThis ≠ 0
      explicitThis := byte &&& CallingConvention.explicitThis ≠ 0 }

/-- The generic parameter count, if the first byte announces one. -/
def genericCount (byte : UInt8) : Parse Nat :=
  if byte &&& CallingConvention.generic ≠ 0 then cu32 else pure 0

def methodHeader (start : Nat) : Parse MethodHeader := do
  let byte ← u8
  let genericCount ← genericCount byte
  orFail (methodHeaderOf? byte genericCount) (errAt .malformed start)

/-- Whether the parameters from here on follow a sentinel; steps over one. -/
def stepSentinel (pastSentinel : Bool) : Parse Bool := do
  let byte ← peek
  if byte = ElementType.sentinel then
    if pastSentinel then
      let p ← get
      throw (p.err .malformed)
    else
      modify (advance 1)
      return true
  else
    return pastSentinel

/-- The parameters before and after the sentinel. -/
def methodParams (param : Parse Param) : Nat → Bool → Parse (List Param × List Param)
  | 0, _ => return ([], [])
  | n + 1, pastSentinel => do
      let past ← stepSentinel pastSentinel
      let first ← param
      let others ← methodParams param n past
      return if past then (others.1, first :: others.2) else (first :: others.1, others.2)

/-- The bytes read since `start`. -/
def since (start : Nat) : Parse (List UInt8) := do
  let p ← get
  if start ≤ p.pos ∧ p.pos ≤ p.data.length then
    return (p.data.drop start).take (p.pos - start)
  else
    return p.data

/-- A method signature but for its `raw` bytes. -/
def methodParts (param : Parse Param) (start : Nat) : Parse MethodSig := do
  let header ← methodHeader start
  let count ← boundedCount
  let returnType ← param
  let lists ← methodParams param count false
  return {
    raw := []
    callingConvention := header.callingConvention
    hasThis := header.hasThis
    explicitThis := header.explicitThis
    returnType
    params := lists.1
    varargParams := lists.2 }

def methodSigInner (param : Parse Param) : Parse MethodSig := do
  let start ← position
  let method ← methodParts param start
  let raw ← since start
  return { method with raw }

mutual

/-- `type_` with `fuel` levels left. -/
def type_ : Nat → Parse SigType
  | 0 => do
      enter
      let p ← get
      throw (p.err .recursionLimit)
  | fuel + 1 => nested (typeInner (type_ fuel) (methodSig fuel))

/-- `method_sig` with `fuel` levels left. -/
def methodSig : Nat → Parse MethodSig
  | 0 => do
      enter
      let p ← get
      throw (p.err .recursionLimit)
  | fuel + 1 => nested (methodSigInner (param (type_ fuel)))

end

/-- The outcome of a run, without the parser. -/
def finish (run : EStateM.Result Error Parser α) : Result α :=
  match run with
  | .ok a _ => .ok a
  | .error e _ => .error e

end Parser

/-! ## The six entry points -/

def MethodSig.parser (limit : Nat) : Parse MethodSig := Parser.methodSig limit

def MethodSig.parseWith (blob : List UInt8) (options : SignatureOptions) : Result MethodSig :=
  Parser.finish ((MethodSig.parser options.limit).run (Parser.new blob options))

def FieldSig.parser (limit : Nat) (blob : List UInt8) : Parse FieldSig := do
  let _ ← Parser.expectConvention CallingConvention.field
  let mods ← Parser.customMods
  let ty ← Parser.type_ limit
  return ⟨blob, mods, ty⟩

def FieldSig.parseWith (blob : List UInt8) (options : SignatureOptions) : Result FieldSig :=
  Parser.finish ((FieldSig.parser options.limit blob).run (Parser.new blob options))

def LocalVarSig.parser (limit : Nat) (blob : List UInt8) : Parse LocalVarSig := do
  let _ ← Parser.expectConvention CallingConvention.localSig
  let locals ← Parser.counted (Parser.localVar (Parser.type_ limit))
  return ⟨blob, locals⟩

def LocalVarSig.parseWith (blob : List UInt8) (options : SignatureOptions) :
    Result LocalVarSig :=
  Parser.finish ((LocalVarSig.parser options.limit blob).run (Parser.new blob options))

/-- The first byte of a property signature; its error names offset 0. -/
def PropertySig.header : Parse UInt8 := do
  let byte ← Parser.u8
  check (byte &&& CallingConvention.mask = CallingConvention.property)
    (Parser.errAt .malformed 0)
  return byte

def PropertySig.parser (limit : Nat) (blob : List UInt8) : Parse PropertySig := do
  let byte ← PropertySig.header
  let count ← Parser.boundedCount
  let returnType ← Parser.param (Parser.type_ limit)
  let params ← repeatM (Parser.param (Parser.type_ limit)) count
  return ⟨blob, byte &&& CallingConvention.hasThis ≠ 0, returnType, params⟩

def PropertySig.parseWith (blob : List UInt8) (options : SignatureOptions) :
    Result PropertySig :=
  Parser.finish ((PropertySig.parser options.limit blob).run (Parser.new blob options))

def MethodSpecSig.parser (limit : Nat) (blob : List UInt8) : Parse MethodSpecSig := do
  let _ ← Parser.expectConvention CallingConvention.genericInst
  let args ← Parser.counted (Parser.type_ limit)
  return ⟨blob, args⟩

def MethodSpecSig.parseWith (blob : List UInt8) (options : SignatureOptions) :
    Result MethodSpecSig :=
  Parser.finish ((MethodSpecSig.parser options.limit blob).run (Parser.new blob options))

def TypeSpecSig.parser (limit : Nat) (blob : List UInt8) : Parse TypeSpecSig := do
  let ty ← Parser.type_ limit
  return ⟨blob, ty⟩

def TypeSpecSig.parseWith (blob : List UInt8) (options : SignatureOptions) :
    Result TypeSpecSig :=
  Parser.finish ((TypeSpecSig.parser options.limit blob).run (Parser.new blob options))

end Cildec
