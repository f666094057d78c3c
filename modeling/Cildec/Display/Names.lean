import Cildec.Display.Text
import Cildec.Lib.Script
import Cildec.Signature.Parser
import Cildec.Tables.Lists

/-!
# Names for tokens and signatures (`src/display.rs`)

A naming helper is a region and a depth. Its functions call each other through the rows of
the region, so each is the body of a `Call`, and a deeper helper is a call with a larger
depth: nothing in the form of the model bounds it.

The lookups among the tables run in `Checked`; a `u32` that leaves its range there stops
every function, where an error of the crate is what `token` recovers from.
-/

namespace Cildec

open Wire

namespace Names

variable (m : Metadata)

/-- The maximum number of token hops a single name may follow. -/
def maxDepth : Nat := 32

/-- The depth of the helper one hop deeper. -/
def deeper (depth : Nat) : Nat := depth + 1

/-- A string of the `#Strings` heap, or an empty one. -/
def string (index : StringIndex) : String :=
  match m.strings.lossy index.value.toNat with
  | .ok text => text
  | .error _ => ""

/-- A row, with its pointer table applied. -/
def row (table : TableId) (rid : Nat) : Checked (Row table) :=
  Checked.ofResult (m.tables.rowIndirect table rid)

/-! ## Types that are defined here -/

/-- The qualified name in a `TypeDef` row. -/
def typeDefName (rid : Nat) : Checked String := do
  let row ← row m .typeDef rid
  return qualify (string m (row.2.2.1 : StringIndex)) (string m (row.2.1 : StringIndex))

/-- Walks outwards through `NestedClass`, at most `rounds` times. -/
def outward : Nat → Nat → String → Checked String
  | 0, _, name => return name
  | rounds + 1, current, name => do
      match ← m.tables.enclosingType current with
      | none => return name
      | some outer =>
          if outer = 0 ∨ outer = current then return name
          else do
            let outerName ← typeDefName m outer
            outward rounds outer (outerName ++ "/" ++ name)

/-- The qualified name of a `TypeDef`, with `/` separating nested types. -/
def typeDef (rid : Nat) : Checked String := do
  let name ← typeDefName m rid
  outward m (m.tables.rowCount .nestedClass) rid name

/-- The type that owns a member, or a question mark. -/
def ownerName (owner : Checked (Option Nat)) : Checked String := do
  match ← owner with
  | some rid => typeDef m rid
  | none => return "?"

/-! ## Calls -/

/-- A call of one of the functions that call each other, on a helper of a depth. -/
inductive Call where
  | typeRef (depth : Nat) (rid : Nat)
  | token (depth : Nat) (token : Token)
  | tryToken (depth : Nat) (token : Token)
  | type_ (depth : Nat) (ty : SigType)
  | mods (depth : Nat) (mods : List CustomMod)
  | param (depth : Nat) (param : Param)
  | methodSig (depth : Nat) (sig : MethodSig) (name : String)

/-- A body of one of them. -/
abbrev Body (α : Type) := Script Call Fault String α

/-- The depth of the helper a call is made on. -/
def Call.depth : Call → Nat
  | .typeRef depth _ => depth
  | .token depth _ => depth
  | .tryToken depth _ => depth
  | .type_ depth _ => depth
  | .mods depth _ => depth
  | .param depth _ => depth
  | .methodSig depth _ _ => depth

/-- The depth is at its limit. -/
def tooDeep (context : String) : Fault := .error (Error.detached .recursionLimit context)

/-! ## Tokens -/

/-- A name in the scope of a `TypeRef` row. -/
def scopedName (depth : Nat) (scope : Token) (name : String) : Body String :=
  if scope.isNull then return name
  else
    match scope.table with
    | some .assemblyRef => do
        let assembly ← Script.ofExcept (row m .assemblyRef scope.rid)
        return "[" ++ string m (assembly.2.2.2.2.2.2.1 : StringIndex) ++ "]" ++ name
    | some .moduleRef => do
        let module ← Script.ofExcept (row m .moduleRef scope.rid)
        return "[.module " ++ string m (module.1 : StringIndex) ++ "]" ++ name
    | some .typeRef => do
        let outer ← Script.call (.typeRef (deeper depth) scope.rid)
        return outer ++ "/" ++ name
    | _ => return name

/-- The qualified name of a `TypeRef`, prefixed with its scope. -/
def typeRef (depth rid : Nat) : Body String :=
  if maxDepth ≤ depth then .fail (tooDeep "TypeRef")
  else do
    let row ← Script.ofExcept (row m .typeRef rid)
    let name := qualify (string m (row.2.2.1 : StringIndex)) (string m (row.2.1 : StringIndex))
    scopedName m depth (row.1 : Token) name

/-- The name of any token this crate can resolve. -/
def token (depth : Nat) (token : Token) : Body String := do
  match ← Script.attempt (.tryToken depth token) with
  | .ok name => return name
  | .error (.error _) => return token.fallback
  | .error fault => .fail fault

/-- The name of a `TypeSpec`, or its fallback where the blob does not parse. -/
def typeSpec (depth rid : Nat) : Body String := do
  let row ← Script.ofExcept (row m .typeSpec rid)
  let blob ← Script.ofExcept (Checked.ofResult (m.blobs.get (row.1 : BlobIndex).value.toNat))
  match TypeSpecSig.parseWith blob .default with
  | .ok sig => Script.call (.type_ depth sig.type_)
  | .error _ => return "TypeSpec[" ++ toString rid ++ "]"

def methodDef (rid : Nat) : Body String := do
  let row ← Script.ofExcept (row m .methodDef rid)
  let owner ← Script.ofExcept (ownerName m (m.tables.typeOfMethod rid))
  return owner ++ "::" ++ string m (row.2.2.2.1 : StringIndex)

def field (rid : Nat) : Body String := do
  let row ← Script.ofExcept (row m .field rid)
  let owner ← Script.ofExcept (ownerName m (m.tables.typeOfField rid))
  return owner ++ "::" ++ string m (row.2.1 : StringIndex)

def memberRef (depth rid : Nat) : Body String := do
  let row ← Script.ofExcept (row m .memberRef rid)
  let parent ← Script.call (.token depth (row.1 : Token))
  return parent ++ "::" ++ string m (row.2.1 : StringIndex)

def methodSpec (depth rid : Nat) : Body String := do
  let row ← Script.ofExcept (row m .methodSpec rid)
  let base ← Script.call (.token depth (row.1 : Token))
  let blob ← Script.ofExcept (Checked.ofResult (m.blobs.get (row.2.1 : BlobIndex).value.toNat))
  match MethodSpecSig.parseWith blob .default with
  | .ok sig => do
      let args ← Script.calls (sig.args.map fun ty => .type_ depth ty)
      return base ++ "<" ++ joined ", " args ++ ">"
  | .error _ => return base

def moduleRef (rid : Nat) : Body String := do
  let row ← Script.ofExcept (row m .moduleRef rid)
  return "[.module " ++ string m (row.1 : StringIndex) ++ "]"

def assemblyRef (rid : Nat) : Body String := do
  let row ← Script.ofExcept (row m .assemblyRef rid)
  return "[" ++ string m (row.2.2.2.2.2.2.1 : StringIndex) ++ "]"

/-- The name of a token, failing when a row or heap entry cannot be read. -/
def tryToken (depth : Nat) (token : Token) : Body String :=
  if maxDepth ≤ depth then .fail (tooDeep "token")
  else
    match token.table with
    | some .typeDef => Script.ofExcept (typeDef m token.rid)
    | some .typeRef => Script.call (.typeRef (deeper depth) token.rid)
    | some .typeSpec => typeSpec m (deeper depth) token.rid
    | some .methodDef => methodDef m token.rid
    | some .field => field m token.rid
    | some .memberRef => memberRef m (deeper depth) token.rid
    | some .methodSpec => methodSpec m (deeper depth) token.rid
    | some .moduleRef => moduleRef m token.rid
    | some .assemblyRef => assemblyRef m token.rid
    | _ => return token.fallback

/-! ## Types -/

/-- Renders the modifiers, the last one first, behind what is rendered so far. -/
def modsFrom (depth : Nat) : List CustomMod → String → Body String
  | [], out => return out
  | mod :: rest, out => do
      let name ← Script.call (.token depth mod.typeToken)
      modsFrom depth rest (out ++ " " ++ mod.keyword ++ "(" ++ name ++ ")")

/-- A modifier list in suffix position. -/
def mods (depth : Nat) (mods : List CustomMod) : Body String := modsFrom depth mods.reverse ""

/-- `class` or `valuetype`. -/
def typeKeyword (isValueType : Bool) : String := if isValueType then "valuetype" else "class"

/-- A type behind its modifiers. -/
def modified (depth : Nat) (mods : List CustomMod) (inner : SigType) (suffix : String) :
    Body String := do
  let name ← Script.call (.type_ depth inner)
  let modifiers ← Script.call (.mods depth mods)
  return name ++ modifiers ++ suffix

/-- An ILAsm-style rendering of a type. -/
def type_ (depth : Nat) : SigType → Body String
  | .ptr mods inner => modified depth mods inner "*"
  | .byRef inner => do
      let name ← Script.call (.type_ depth inner)
      return name ++ "&"
  | .valueType token => do
      let name ← Script.call (.token depth token)
      return "valuetype " ++ name
  | .class_ token => do
      let name ← Script.call (.token depth token)
      return "class " ++ name
  | .szArray mods element => modified depth mods element "[]"
  | .array element shape => do
      let name ← Script.call (.type_ depth element)
      return name ++ shapeString shape
  | .genericInst isValueType definition args => do
      let args ← Script.calls (args.map fun ty => .type_ depth ty)
      let name ← Script.call (.token depth definition)
      return typeKeyword isValueType ++ " " ++ name ++ "<" ++ joined ", " args ++ ">"
  | .fnPtr method => do
      let name ← Script.call (.methodSig depth method "")
      return "method " ++ name
  | .modified mods inner => modified depth mods inner ""
  | .pinned inner => do
      let name ← Script.call (.type_ depth inner)
      return name ++ " pinned"
  | ty => return ty.keyword

/-- An ILAsm-style rendering of one parameter or return type. -/
def param (depth : Nat) (param : Param) : Body String := do
  let name ← Script.call (.type_ depth param.type_)
  let modifiers ← Script.call (.mods depth param.customMods)
  return name ++ (if param.byRef then "&" else "") ++ modifiers

/-- An ILAsm-style rendering of a method signature with the given name. -/
def methodSig (depth : Nat) (sig : MethodSig) (name : String) : Body String := do
  let returnType ← Script.call (.param depth sig.returnType)
  let params ← Script.calls (sig.params.map fun p => .param depth p)
  let varargs ← Script.calls (sig.varargParams.map fun p => .param depth p)
  let parts := if sig.varargParams.isEmpty then params else params ++ "..." :: varargs
  return sig.prefixWords ++ returnType ++ " " ++ name ++ sig.callingConvention.suffix ++ "(" ++
    joined ", " parts ++ ")"

/-- The body of each call. -/
def body : Call → Body String
  | .typeRef depth rid => typeRef m depth rid
  | .token depth t => token depth t
  | .tryToken depth t => tryToken m depth t
  | .type_ depth ty => type_ depth ty
  | .mods depth ms => mods depth ms
  | .param depth p => param depth p
  | .methodSig depth sig name => methodSig depth sig name

end Names

end Cildec
