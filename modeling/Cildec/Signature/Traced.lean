import Cildec.Lib.Logged
import Cildec.Signature.Parser

/-!
# What the signature parser does on its way (`src/signature.rs`)

The methods of `Parser` once more, with the events that its result does not show: how deep
`enter` counts, what the counter is after a type or a method signature, how long the lists of
`custom_mods` are, and how much every `Vec::with_capacity` reserves.
-/

namespace Cildec

open Wire

/-- What a run of the parser does with its depth counter and its vectors. -/
inductive Event
  /-- `enter` counted a level. -/
  | entered (depth : Nat)
  /-- A type or a method signature was read; the counter before and after it. -/
  | read (before after : Nat)
  /-- `custom_mods` read so many modifiers in one run. -/
  | mods (count : Nat)
  /-- A vector was reserved, with `left` bytes after the cursor. -/
  | reserved (capacity left : Nat)
  /-- The vector of parameters was reserved, after the return type; `counted` bytes were left
  when their count was read. -/
  | reservedParams (capacity counted left : Nat)
deriving DecidableEq

/-- A method of `Parser` that writes its events. -/
abbrev Traced := Logged Error Parser Event

namespace Traced

open Logged (silent read log watched)
open Cildec.Parser (position u8 peek cu32 ci32 boundedCount expectConvention typeToken takeIf genericKind
  checkRank methodHeader stepSentinel since errAt setPinned leave)

def customMods : Traced (List CustomMod) := do
  let mods ← silent Parser.customMods
  log fun _ => .mods mods.length
  return mods

/-- A bounded count and that many items, whose vector is reserved in between. -/
def counted (item : Traced α) : Traced (List α) := do
  let count ← silent boundedCount
  log fun p => .reserved count p.remaining
  Logged.repeatM item count

/-! ## Nesting -/

/-- Runs `inner` and then `reset`, also when `inner` fails. -/
def resetting (reset : Parser → Parser) (inner : Traced α) : Traced α := fun p =>
  match inner p with
  | (.ok a p', events) => (.ok a (reset p'), events)
  | (.error e p', events) => (.error e (reset p'), events)

def enter : Traced Unit := watched (fun p => .entered p.depth) Parser.enter

/-- One level of nesting. -/
def nested (inner : Traced α) : Traced α := do
  let before ← read Parser.depth
  enter
  let a ← resetting leave inner
  log fun p => .read before p.depth
  return a

/-! ## Types -/

def arrayShape : Traced ArrayShape := do
  let rank ← silent cu32
  silent (checkRank rank)
  let sizes ← counted (silent cu32)
  let loBounds ← counted (silent ci32)
  return ⟨rank, sizes, loBounds⟩

def pinnedType (type_ : Traced SigType) (start : Nat) : Traced SigType := do
  let p ← silent get
  if p.pinnedSeen then
    silent (throw (errAt .malformed start))
  else
    silent (modify (setPinned true))
    let inner ← resetting (setPinned false) type_
    return .pinned inner

/-- What follows the element type byte that stood at `start`. -/
def typeBody (type_ : Traced SigType) (methodSig : Traced MethodSig) (start : Nat)
    (byte : UInt8) : Traced SigType :=
  match SigType.primitive? byte with
  | some primitive => return primitive
  | none =>
      if byte = ElementType.ptr then do
        let mods ← customMods
        let inner ← type_
        return .ptr mods inner
      else if byte = ElementType.byRef then do
        let inner ← type_
        return .byRef inner
      else if byte = ElementType.valueType then do
        let token ← silent typeToken
        return .valueType token
      else if byte = ElementType.class_ then do
        let token ← silent typeToken
        return .class_ token
      else if byte = ElementType.var then do
        let index ← silent cu32
        return .var index
      else if byte = ElementType.mvar then do
        let index ← silent cu32
        return .mvar index
      else if byte = ElementType.szArray then do
        let mods ← customMods
        let element ← type_
        return .szArray mods element
      else if byte = ElementType.array then do
        let element ← type_
        let shape ← arrayShape
        return .array element shape
      else if byte = ElementType.genericInst then do
        let isValueType ← silent genericKind
        let definition ← silent typeToken
        let args ← counted type_
        return .genericInst isValueType definition args
      else if byte = ElementType.fnPtr then do
        let method ← methodSig
        return .fnPtr method
      else if byte = ElementType.pinned then
        pinnedType type_ start
      else if byte = ElementType.internal then
        silent (throw (errAt .unsupported start))
      else
        silent (throw (errAt .malformed start))

/-- An element type byte and what follows it. -/
def plainType (type_ : Traced SigType) (methodSig : Traced MethodSig) : Traced SigType := do
  let start ← silent position
  let byte ← silent u8
  typeBody type_ methodSig start byte

def typeInner (type_ : Traced SigType) (methodSig : Traced MethodSig) : Traced SigType := do
  let leading ← customMods
  if leading.isEmpty then
    plainType type_ methodSig
  else
    let inner ← type_
    return .modified leading inner

/-! ## Parameters and methods -/

def param (type_ : Traced SigType) : Traced Param := do
  let mods ← customMods
  let byRef ← silent (takeIf ElementType.byRef)
  let ty ← type_
  return ⟨mods, byRef, ty⟩

/-- The modifiers after `PINNED`. -/
def modsIf (pinned : Bool) : Traced (List CustomMod) :=
  if pinned then customMods else pure []

/-- A local that is not the bare `TYPEDBYREF`. -/
def plainLocal (type_ : Traced SigType) : Traced LocalVar := do
  let mods ← customMods
  let pinned ← silent (takeIf ElementType.pinned)
  let more ← modsIf pinned
  let byRef ← silent (takeIf ElementType.byRef)
  let ty ← type_
  let p ← silent get
  silent (check (ty.isPinned = false) (p.err .malformed))
  return ⟨mods ++ more, pinned, byRef, ty⟩

def localVar (type_ : Traced SigType) : Traced LocalVar := do
  if ← silent (takeIf ElementType.typedByRef) then
    return ⟨[], false, false, .typedByRef⟩
  else
    plainLocal type_

/-- The parameters before and after the sentinel. -/
def methodParams (param : Traced Param) : Nat → Bool → Traced (List Param × List Param)
  | 0, _ => return ([], [])
  | n + 1, pastSentinel => do
      let past ← silent (stepSentinel pastSentinel)
      let first ← param
      let others ← methodParams param n past
      return if past then (others.1, first :: others.2) else (first :: others.1, others.2)

/-- A method signature but for its `raw` bytes: its parameters are counted in front of the
return type, and their vector is reserved after it. -/
def methodParts (param : Traced Param) (start : Nat) : Traced MethodSig := do
  let header ← silent (methodHeader start)
  let count ← silent boundedCount
  let counted ← read Parser.remaining
  let returnType ← param
  log fun p => .reservedParams count counted p.remaining
  let lists ← methodParams param count false
  return {
    raw := []
    callingConvention := header.callingConvention
    hasThis := header.hasThis
    explicitThis := header.explicitThis
    returnType
    params := lists.1
    varargParams := lists.2 }

def methodSigInner (param : Traced Param) : Traced MethodSig := do
  let start ← silent position
  let method ← methodParts param start
  let raw ← silent (since start)
  return { method with raw }

mutual

/-- `type_` with `fuel` levels left. -/
def type_ : Nat → Traced SigType
  | 0 => do
      enter
      silent do
        let p ← get
        throw (p.err .recursionLimit)
  | fuel + 1 => nested (typeInner (type_ fuel) (methodSig fuel))

/-- `method_sig` with `fuel` levels left. -/
def methodSig : Nat → Traced MethodSig
  | 0 => do
      enter
      silent do
        let p ← get
        throw (p.err .recursionLimit)
  | fuel + 1 => nested (methodSigInner (param (type_ fuel)))

end

end Traced

/-! ## The six entry points -/

open Logged (silent read log)

def MethodSig.traced (levels : Nat) : Traced MethodSig := Traced.methodSig levels

def FieldSig.traced (levels : Nat) (blob : List UInt8) : Traced FieldSig := do
  let _ ← silent (Parser.expectConvention CallingConvention.field)
  let mods ← Traced.customMods
  let ty ← Traced.type_ levels
  return ⟨blob, mods, ty⟩

def LocalVarSig.traced (levels : Nat) (blob : List UInt8) : Traced LocalVarSig := do
  let _ ← silent (Parser.expectConvention CallingConvention.localSig)
  let locals ← Traced.counted (Traced.localVar (Traced.type_ levels))
  return ⟨blob, locals⟩

def PropertySig.traced (levels : Nat) (blob : List UInt8) : Traced PropertySig := do
  let byte ← silent PropertySig.header
  let count ← silent Parser.boundedCount
  let counted ← read Parser.remaining
  let returnType ← Traced.param (Traced.type_ levels)
  log fun p => .reservedParams count counted p.remaining
  let params ← Logged.repeatM (Traced.param (Traced.type_ levels)) count
  return ⟨blob, byte &&& CallingConvention.hasThis ≠ 0, returnType, params⟩

def MethodSpecSig.traced (levels : Nat) (blob : List UInt8) : Traced MethodSpecSig := do
  let _ ← silent (Parser.expectConvention CallingConvention.genericInst)
  let args ← Traced.counted (Traced.type_ levels)
  return ⟨blob, args⟩

def TypeSpecSig.traced (levels : Nat) (blob : List UInt8) : Traced TypeSpecSig := do
  let ty ← Traced.type_ levels
  return ⟨blob, ty⟩

end Cildec
