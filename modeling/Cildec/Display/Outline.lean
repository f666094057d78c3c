import Cildec.Display.Faults

/-!
# The outline of a name

A name is made of text of its own and of the names of other tokens. Its outline keeps the
number of characters of the one and the list of the others, piece by piece as the functions of
`Names` put the name together.

* `SigType.outline`, `MethodSig.outline`: of a signature;
* `Names.outline`: of a token, with so many hops left;
* `Names.paths`: the tokens that are named in the name of a token, one for each way of
  references that leads to it.
-/

namespace Cildec

open Wire

/-- The characters of a text of its own, and the tokens that are named in it. -/
structure Outline where
  own : Nat
  refs : List Token
  deriving DecidableEq, Repr

namespace Outline

def text (s : String) : Outline := ⟨s.length, []⟩

def token (t : Token) : Outline := ⟨0, [t]⟩

instance : Append Outline where
  append o o' := ⟨o.own + o'.own, o.refs ++ o'.refs⟩

/-- The outline of `joined`. -/
def joined (separator : String) : List Outline → Outline
  | [] => text ""
  | [part] => part
  | part :: next :: parts => part ++ text separator ++ joined separator (next :: parts)

/-- The characters of the whole text, where a token takes `f` of them. -/
def length (f : Token → Nat) (o : Outline) : Nat := o.own + (o.refs.map f).sum

variable {f : Token → Nat}

@[simp] theorem length_text (s : String) : (text s).length f = s.length := by
  simp only [length, text, List.map_nil, List.sum_nil, Nat.add_zero]

@[simp] theorem length_token (t : Token) : (token t).length f = f t := by
  simp only [length, token, List.map_cons, List.map_nil, List.sum_cons, List.sum_nil, Nat.zero_add,
    Nat.add_zero]

@[simp] theorem length_append (o o' : Outline) :
    (o ++ o').length f = o.length f + o'.length f := by
  show o.own + o'.own + ((o.refs ++ o'.refs).map f).sum = _
  rw [List.map_append, List.sum_append, length, length]
  omega

/-- Joined texts are as long as their joined outlines say. -/
theorem length_joined {separator : String} {parts : List String} {outlines : List Outline}
    (h : List.Forall₂ (fun part o => part.length = o.length f) parts outlines) :
    (Cildec.joined separator parts).length = (joined separator outlines).length f := by
  induction h with
  | nil => rfl
  | cons hpart hparts ih =>
      cases hparts with
      | nil => exact hpart
      | cons hnext hparts =>
          simp only [Cildec.joined, joined, String.length_append, length_append, length_text,
            hpart] at ih ⊢
          rw [ih]

end Outline

/-! ## Signatures -/

/-- The outline of `mods`. -/
def CustomMod.outlineAll : List CustomMod → Outline
  | [] => .text ""
  | mod :: mods => CustomMod.outlineAll mods ++
      (.text (" " ++ mod.keyword ++ "(") ++ .token mod.typeToken ++ .text ")")

mutual

/-- The outline of `type_`. -/
def SigType.outline : SigType → Outline
  | .ptr mods inner => inner.outline ++ CustomMod.outlineAll mods ++ .text "*"
  | .byRef inner => inner.outline ++ .text "&"
  | .valueType token => .text "valuetype " ++ .token token
  | .class_ token => .text "class " ++ .token token
  | .szArray mods element => element.outline ++ CustomMod.outlineAll mods ++ .text "[]"
  | .array element shape => element.outline ++ .text (shapeString shape)
  | .genericInst isValueType definition args =>
      .text (Names.typeKeyword isValueType ++ " ") ++ .token definition ++ .text "<" ++
        .joined ", " (SigType.outlines args) ++ .text ">"
  | .fnPtr method => .text "method " ++ method.outline ""
  | .modified mods inner => inner.outline ++ CustomMod.outlineAll mods ++ .text ""
  | .pinned inner => inner.outline ++ .text " pinned"
  | ty => .text ty.keyword

def SigType.outlines : List SigType → List Outline
  | [] => []
  | ty :: tys => ty.outline :: SigType.outlines tys

/-- The outline of `param`. -/
def Param.outline : Param → Outline
  | ⟨customMods, byRef, ty⟩ =>
      ty.outline ++ .text (if byRef then "&" else "") ++ CustomMod.outlineAll customMods

def Param.outlines : List Param → List Outline
  | [] => []
  | param :: params => param.outline :: Param.outlines params

/-- The outline of `method_sig`. -/
def MethodSig.outline : MethodSig → String → Outline
  | ⟨raw, callingConvention, hasThis, explicitThis, returnType, params, varargParams⟩, name =>
      .text (MethodSig.prefixWords
        ⟨raw, callingConvention, hasThis, explicitThis, returnType, params, varargParams⟩) ++
      returnType.outline ++ .text (" " ++ name ++ callingConvention.suffix ++ "(") ++
      .joined ", " (if varargParams.isEmpty then Param.outlines params
        else Param.outlines params ++ .text "..." :: Param.outlines varargParams) ++ .text ")"

end

theorem SigType.outlines_eq (tys : List SigType) :
    SigType.outlines tys = tys.map SigType.outline := by
  induction tys with
  | nil => rfl
  | cons ty tys ih => rw [outlines, ih, List.map_cons]

theorem Param.outlines_eq (params : List Param) :
    Param.outlines params = params.map Param.outline := by
  induction params with
  | nil => rfl
  | cons param params ih => rw [outlines, ih, List.map_cons]

/-! ## Tokens -/

namespace Names

variable (m : Metadata)

/-- The outline of a name that names no token. -/
def plain : Option (Except Fault String) → Checked Outline
  | some (.ok name) => .ok (.text name)
  | some (.error fault) => .error fault
  | none => .error .rounds

/-- The outline of `typeSpec`. -/
def typeSpecOutline (rid : Nat) : Checked Outline := do
  let row ← row m .typeSpec rid
  let blob ← Checked.ofResult (m.blobs.get (row.1 : BlobIndex).value.toNat)
  match TypeSpecSig.parseWith blob .default with
  | .ok sig => return sig.type_.outline
  | .error _ => return .text ("TypeSpec[" ++ toString rid ++ "]")

/-- The outline of `memberRef`. -/
def memberRefOutline (rid : Nat) : Checked Outline := do
  let row ← row m .memberRef rid
  return Outline.token (row.1 : Token) ++ .text ("::" ++ string m (row.2.1 : StringIndex))

/-- The outline of `methodSpec`. -/
def methodSpecOutline (rid : Nat) : Checked Outline := do
  let row ← row m .methodSpec rid
  let blob ← Checked.ofResult (m.blobs.get (row.2.1 : BlobIndex).value.toNat)
  match MethodSpecSig.parseWith blob .default with
  | .ok sig => return Outline.token (row.1 : Token) ++ .text "<" ++
      Outline.joined ", " (SigType.outlines sig.args) ++ .text ">"
  | .error _ => return .token (row.1 : Token)

/-- The outline of `tryToken`, with `hops` left behind it. What a `TypeRef` and the rows
without references render as is text of their own. -/
def tryOutline (hops : Nat) (token : Token) : Checked Outline :=
  match token.table with
  | some .typeDef => plain (some (typeDef m token.rid))
  | some .typeRef =>
      plain (Script.outcome (body m) Call.rank (.typeRef (maxDepth - hops) token.rid))
  | some .typeSpec => typeSpecOutline m token.rid
  | some .methodDef => plain ((methodDef m token.rid).run fun _ => none)
  | some .field => plain ((field m token.rid).run fun _ => none)
  | some .memberRef => memberRefOutline m token.rid
  | some .methodSpec => methodSpecOutline m token.rid
  | some .moduleRef => plain ((moduleRef m token.rid).run fun _ => none)
  | some .assemblyRef => plain ((assemblyRef m token.rid).run fun _ => none)
  | _ => return .text token.fallback

/-- The outline of `token`, with `hops` left. -/
def outline : Nat → Token → Outline
  | 0, token => .text token.fallback
  | hops + 1, token =>
      match tryOutline m hops token with
      | .ok o => o
      | .error _ => .text token.fallback

/-- The tokens that the name of a token names, with the hops that are left at each: one for
every way of references that leads to it. -/
def paths : Nat → Token → List (Nat × Token)
  | 0, token => [(0, token)]
  | hops + 1, token =>
      (hops + 1, token) :: (outline m (hops + 1) token).refs.flatMap (paths hops)

/-- The characters that they have of their own. -/
def pathText (hops : Nat) (token : Token) : Nat :=
  ((paths m hops token).map fun p => (outline m p.1 p.2).own).sum

theorem pathText_succ (hops : Nat) (token : Token) :
    pathText m (hops + 1) token =
      (outline m (hops + 1) token).length (pathText m hops) := by
  have hflat : ∀ ts : List Token,
      ((ts.flatMap (paths m hops)).map fun p => (outline m p.1 p.2).own).sum =
        (ts.map (pathText m hops)).sum := by
    intro ts
    induction ts with
    | nil => rfl
    | cons t ts ih =>
        rw [List.flatMap_cons, List.map_append, List.sum_append, ih, List.map_cons, List.sum_cons,
          pathText]
  rw [pathText, paths, List.map_cons, List.sum_cons, hflat, Outline.length]

end Names

end Cildec
