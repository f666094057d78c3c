import Cildec.Signature.Nested

/-!
# What a signature's own bytes decide

The parsers look at bytes after a signature only to bound an array's rank.

* `SigType.methods`, …: the method signatures inside a value;
* `methodCollector_sound`: each of them is spelled by its own `raw`;
* `signatures_local_iff`: the bytes of a signature decide it exactly when they make room
  for their array ranks.
-/

namespace Cildec

open Wire Cildec.Parser

/-! ## Method signatures inside a value -/

mutual

/-- The method signatures inside a type, at any depth. -/
def SigType.methods : SigType → List MethodSig
  | .modified _ inner => inner.methods
  | .ptr _ inner => inner.methods
  | .byRef inner => inner.methods
  | .array element _ => element.methods
  | .szArray _ element => element.methods
  | .genericInst _ _ args => SigType.methodsAll args
  | .fnPtr method => method.methods
  | .pinned inner => inner.methods
  | _ => []

def SigType.methodsAll : List SigType → List MethodSig
  | [] => []
  | ty :: tys => ty.methods ++ SigType.methodsAll tys

def Param.methods : Param → List MethodSig
  | ⟨_, _, ty⟩ => ty.methods

def Param.methodsAll : List Param → List MethodSig
  | [] => []
  | param :: params => param.methods ++ Param.methodsAll params

/-- The method signature itself and those inside it. -/
def MethodSig.methods : MethodSig → List MethodSig
  | ⟨raw, convention, hasThis, explicitThis, returnType, params, varargParams⟩ =>
      ⟨raw, convention, hasThis, explicitThis, returnType, params, varargParams⟩ ::
        (returnType.methods ++ (Param.methodsAll params ++ Param.methodsAll varargParams))

end

def FieldSig.methods (sig : FieldSig) : List MethodSig := sig.type_.methods

def LocalVarSig.methods (sig : LocalVarSig) : List MethodSig :=
  sig.locals.flatMap fun l => l.type_.methods

def PropertySig.methods (sig : PropertySig) : List MethodSig :=
  sig.returnType.methods ++ Param.methodsAll sig.params

def MethodSpecSig.methods (sig : MethodSpecSig) : List MethodSig := SigType.methodsAll sig.args

def TypeSpecSig.methods (sig : TypeSpecSig) : List MethodSig := sig.type_.methods

theorem SigType.methodsAll_eq (tys : List SigType) :
    SigType.methodsAll tys = tys.flatMap SigType.methods := by
  induction tys with
  | nil => rfl
  | cons ty tys ih => rw [SigType.methodsAll, ih, List.flatMap_cons]

theorem Param.methodsAll_eq (params : List Param) :
    Param.methodsAll params = params.flatMap Param.methods := by
  induction params with
  | nil => rfl
  | cons param params ih => rw [Param.methodsAll, ih, List.flatMap_cons]

theorem Param.methods_type (param : Param) : param.methods = param.type_.methods := by
  cases param
  rfl

theorem SigType.methods_primitive {byte : UInt8} {ty : SigType}
    (h : SigType.primitive? byte = some ty) : ty.methods = [] := by
  unfold SigType.primitive? at h
  split at h <;> first | (cases h; rfl) | cases h

/-! ## More levels spell more -/

namespace Parser

variable {limit : Nat} {T T' : Bool → Grammar SigType} {M M' : Bool → Grammar MethodSig}
  {seen seen' : Bool}

/-- The grammar below a `PINNED` spells no more than the one that is not. -/
theorem bodyGrammar_le (hT : ∀ s s', (s' = true → s = true) → (T s).Le (T' s'))
    (hM : ∀ s s', (s' = true → s = true) → (M s).Le (M' s')) (hseen : seen' = true → seen = true)
    (byte : UInt8) :
    (bodyGrammar limit T M seen byte).Le (bodyGrammar limit T' M' seen' byte) := by
  have hty := hT seen seen' hseen
  unfold bodyGrammar
  cases SigType.primitive? byte with
  | some primitive => exact Grammar.Le.refl _
  | none =>
      refine Grammar.Le.ite (Grammar.Le.ahead fun mods => hty.map _) ?_
      refine Grammar.Le.ite (hty.map _) ?_
      refine Grammar.Le.ite (Grammar.Le.refl _) ?_
      refine Grammar.Le.ite (Grammar.Le.refl _) ?_
      refine Grammar.Le.ite (Grammar.Le.refl _) ?_
      refine Grammar.Le.ite (Grammar.Le.refl _) ?_
      refine Grammar.Le.ite (Grammar.Le.ahead fun mods => hty.map _) ?_
      refine Grammar.Le.ite (hty.bind fun _ => Grammar.Le.refl _) ?_
      refine Grammar.Le.ite ?_ ?_
      · refine (Grammar.Le.refl _).bind fun _ => (Grammar.Le.refl _).bind fun _ => ?_
        exact ((Grammar.Le.refl _).bind fun n => hty.repeated n).map _
      refine Grammar.Le.ite ((hM seen seen' hseen).map _) ?_
      refine Grammar.Le.ite (((hT true true id).map _).guard ?_) (Grammar.Le.refl _)
      intro hfalse
      cases seen' with
      | false => rfl
      | true =>
          rw [hseen rfl] at hfalse
          cases hfalse

theorem typeInnerGrammar_le (hT : ∀ s s', (s' = true → s = true) → (T s).Le (T' s'))
    (hM : ∀ s s', (s' = true → s = true) → (M s).Le (M' s'))
    (hseen : seen' = true → seen = true) :
    (typeInnerGrammar limit T M seen).Le (typeInnerGrammar limit T' M' seen') :=
  Grammar.Le.ahead fun _ => Grammar.Le.ite
    ((Grammar.Le.refl _).bind fun byte => bodyGrammar_le hT hM hseen byte)
    ((hT seen seen' hseen).map _)

theorem paramGrammar_le {R R' : Grammar SigType} (h : R.Le R') :
    (paramGrammar limit R).Le (paramGrammar limit R') :=
  Grammar.Le.ahead fun _ => Grammar.Le.ahead fun _ => h.map _

theorem methodParamsGrammar_le {R R' : Grammar Param} (h : R.Le R') :
    ∀ n past, (methodParamsGrammar R n past).Le (methodParamsGrammar R' n past)
  | 0, _ => Grammar.Le.refl _
  | n + 1, _ => Grammar.Le.ahead fun past =>
      h.bind fun _ => (methodParamsGrammar_le h n past).map _

theorem methodInnerGrammar_le {R R' : Grammar Param} (h : R.Le R') :
    (methodInnerGrammar R).Le (methodInnerGrammar R') := by
  refine Grammar.Le.sourced ?_ _
  refine (Grammar.Le.refl _).bind fun header => (Grammar.Le.refl _).bind fun count => ?_
  exact h.bind fun _ => (methodParamsGrammar_le h count false).map _

/-- What nests at most `n` deep nests at most `n'` deep. -/
theorem typeGrammar_le (limit : Nat) : ∀ n n', n ≤ n' → ∀ seen seen',
    (seen' = true → seen = true) →
    (typeGrammar limit n seen).Le (typeGrammar limit n' seen') ∧
      (methodGrammar limit n seen).Le (methodGrammar limit n' seen') := by
  intro n
  induction n with
  | zero =>
      intro n' _ seen seen' _
      rw [typeGrammar, methodGrammar]
      exact ⟨Grammar.Le.none _, Grammar.Le.none _⟩
  | succ n ih =>
      intro n' hn seen seen' hseen
      obtain ⟨k, rfl⟩ := Nat.exists_eq_add_of_lt hn
      have hle := ih (n + k) (Nat.le_add_right n k)
      rw [typeGrammar, methodGrammar, typeGrammar, methodGrammar]
      refine ⟨typeInnerGrammar_le ?_ ?_ hseen, methodInnerGrammar_le (paramGrammar_le ?_)⟩
      · exact fun s s' h => (hle s s' h).1
      · exact fun s s' h => (hle s s' h).2
      · exact (hle seen seen' hseen).1

end Parser

/-! ## Every method signature keeps its bytes -/

/-- The method signatures inside a value. -/
def methodCollector : Collector MethodSig where
  type_ := SigType.methods
  param := Param.methods
  method := MethodSig.methods
  shape := fun _ => []
  own := fun m => [m]

theorem MethodSig.methods_eq (m : MethodSig) : m.methods =
    [m] ++ (m.returnType.methods ++ (m.params.flatMap Param.methods ++
      m.varargParams.flatMap Param.methods)) := by
  cases m
  rw [MethodSig.methods, Param.methodsAll_eq, Param.methodsAll_eq]
  rfl

theorem methodCollector_lawful : methodCollector.Lawful where
  modified _ _ := rfl
  ptr _ _ := rfl
  byRef _ := rfl
  szArray _ _ := rfl
  pinned _ := rfl
  array ty _ := (List.append_nil ty.methods).symm
  genericInst _ _ args := SigType.methodsAll_eq args
  fnPtr _ := rfl
  primitive h := SigType.methods_primitive h
  valueType _ := rfl
  class_ _ := rfl
  var _ := rfl
  mvar _ := rfl
  param _ _ _ := rfl
  method m := m.methods_eq

/-- The bytes a method signature keeps spell it. -/
def Spelled (limit : Nat) (m : MethodSig) (bs : List UInt8) : Prop :=
  bs = m.raw ∧ ∃ ms, MethodSig.grammar limit m bs ms

/-- Within the limit, every method signature is spelled by its own bytes. -/
theorem methodCollector_sound (limit : Nat) :
    methodCollector.Sound (Spelled limit) limit where
  lawful := methodCollector_lawful
  shape := Grammar.Finds.nil _ _ fun _ => rfl
  own n hn seen m bs ms hm := by
    have htop := (Parser.typeGrammar_le limit n limit hn seen false Bool.false_ne_true.elim).2
      m bs ms hm
    refine Grammar.foundIn_self ⟨?_, ms, htop⟩
    cases n with
    | zero =>
        rw [methodGrammar] at hm
        exact hm.elim
    | succ n =>
        rw [methodGrammar] at hm
        obtain ⟨parts, rfl, _⟩ := hm
        rfl

/-- A grammar that only keeps its blob spells the same with another one. -/
theorem spelled_of_raw {α : Type} {R : List UInt8 → Grammar α} {withRaw : α → List UInt8 → α}
    (h : ∀ blob blob', (R blob).map (fun a => withRaw a blob') = R blob') {blob bs : List UInt8}
    {a : α} {ms : List Mark} (hR : R blob a bs ms) (blob' : List UInt8) :
    ∃ raw, R blob' (withRaw a raw) bs ms := by
  rw [← h blob blob']
  exact ⟨blob', a, rfl, hR⟩

/-- The blob is kept as it is, and decides nothing else. -/
theorem FieldSig.grammar_raw (limit : Nat) (blob blob' : List UInt8) :
    (FieldSig.grammar limit blob).map (fun sig => { sig with raw := blob' }) =
      FieldSig.grammar limit blob' := by
  simp only [FieldSig.grammar, modsThen, Grammar.bind_map, Grammar.ahead_map, Grammar.map_map]

theorem LocalVarSig.grammar_raw (limit : Nat) (blob blob' : List UInt8) :
    (LocalVarSig.grammar limit blob).map (fun sig => { sig with raw := blob' }) =
      LocalVarSig.grammar limit blob' := by
  simp only [LocalVarSig.grammar, Grammar.bind_map, Grammar.map_map]

theorem PropertySig.grammar_raw (limit : Nat) (blob blob' : List UInt8) :
    (PropertySig.grammar limit blob).map (fun sig => { sig with raw := blob' }) =
      PropertySig.grammar limit blob' := by
  simp only [PropertySig.grammar, Grammar.bind_map, Grammar.map_map]

theorem MethodSpecSig.grammar_raw (limit : Nat) (blob blob' : List UInt8) :
    (MethodSpecSig.grammar limit blob).map (fun sig => { sig with raw := blob' }) =
      MethodSpecSig.grammar limit blob' := by
  simp only [MethodSpecSig.grammar, Grammar.bind_map, Grammar.map_map]

theorem TypeSpecSig.grammar_raw (limit : Nat) (blob blob' : List UInt8) :
    (TypeSpecSig.grammar limit blob).map (fun sig => { sig with raw := blob' }) =
      TypeSpecSig.grammar limit blob' := by
  simp only [TypeSpecSig.grammar, Grammar.map_map]

/-! ## Locality -/

/-- Whatever follows `bytes`, `parse` gives `sig` back, but for the bytes it keeps. -/
def DecidedBy {α : Type} (parse : List UInt8 → Result α) (withRaw : α → List UInt8 → α)
    (sig : α) (bytes : List UInt8) : Prop :=
  ∀ s, ∃ raw, parse (bytes ++ s) = .ok (withRaw sig raw)

/-- Every method signature of the list is read back from the bytes it keeps, exactly when
these make room for their array ranks. -/
def ReparsedIff (options : SignatureOptions) (methods : List MethodSig) : Prop :=
  ∀ m ∈ methods, MethodSig.parseWith m.raw options = .ok m ↔
    (MethodSig.grammar options.limit).Roomy m.raw

/-- Bytes that are read with nothing after them make room for their marks. -/
theorem Parser.roomy_of_parsed {α : Type} {options : SignatureOptions} {x : Parse α}
    {R : Grammar α} (h : Accepts (At options.limit 0 false) x R) {bs : List UInt8} {b : α}
    (hparse : finish (x.run (Parser.new bs options)) = .ok b) : R.Roomy bs := by
  intro a ms hR
  obtain ⟨p, hrun⟩ := Parser.finish_ok_iff.mp hparse
  by_contra hfits
  refine h.refuses _ a bs ms [] (Parser.new_at bs options) hR ?_ hfits b p hrun
  rw [List.append_nil]
  exact Parser.rest_new bs options

/-- Bytes that make room for their marks are read whatever follows. -/
theorem Parser.parsed_of_roomy {α : Type} {options : SignatureOptions} {x : Parse α}
    {R : Grammar α} (h : Accepts (At options.limit 0 false) x R) {a : α} {bs : List UInt8}
    {ms : List Mark} (hR : R a bs ms) (hroomy : R.Roomy bs) (s : List UInt8) :
    finish (x.run (Parser.new (bs ++ s) options)) = .ok a :=
  Parser.parsed_of_spells h ⟨ms, hR, hroomy a ms hR⟩ s

/-- The bytes up to the cursor decide the result exactly when they make room for their
marks. -/
theorem Parser.decidedBy_iff {α : Type} {options : SignatureOptions} {x : List UInt8 → Parse α}
    {R : List UInt8 → Grammar α} {withRaw : α → List UInt8 → α}
    (h : ∀ blob, Accepts (At options.limit 0 false) (x blob) (R blob))
    (hraw : ∀ {blob a bs ms}, R blob a bs ms → ∀ blob', ∃ raw, R blob' (withRaw a raw) bs ms)
    {blob : List UInt8} {a : α} {p : Parser}
    (hrun : (x blob).run (Parser.new blob options) = .ok a p) :
    DecidedBy (fun bytes => finish ((x bytes).run (Parser.new bytes options))) withRaw a
      (blob.take p.pos) ↔ (R blob).Roomy (blob.take p.pos) := by
  obtain ⟨ms, hR⟩ := Parser.spelled_of_run (h blob) hrun
  have hsame : ∀ blob₁ blob₂ bs, (R blob₁).Roomy bs → (R blob₂).Roomy bs := by
    intro blob₁ blob₂ bs hroom b ns hb
    obtain ⟨raw, hb'⟩ := hraw hb blob₁
    exact hroom _ ns hb'
  constructor
  · intro hdecided
    obtain ⟨raw, hparse⟩ := hdecided []
    rw [List.append_nil] at hparse
    exact hsame _ _ _ (Parser.roomy_of_parsed (h _) hparse)
  · intro hroom s
    obtain ⟨raw, hR'⟩ := hraw hR (blob.take p.pos ++ s)
    exact ⟨raw, Parser.parsed_of_roomy (h _) hR' (hsame _ _ _ hroom) s⟩

theorem MethodSig.reparsed_iff {options : SignatureOptions} {methods : List MethodSig}
    {bs : List UInt8} (h : Grammar.FoundIn (Spelled options.limit) methods bs) :
    ReparsedIff options methods := by
  intro m hm
  obtain ⟨_, _, rfl, ms, hR⟩ := h m hm
  have haccepts := MethodSig.accepts options.limit
  constructor
  · exact Parser.roomy_of_parsed haccepts
  · intro hroomy
    have hparsed := Parser.parsed_of_roomy haccepts hR hroomy []
    rwa [List.append_nil] at hparsed

/-- Bytes that were read decide their signature, whatever follows them, exactly when every
array rank in them is at most one more than the number of their bytes after it. The method
signatures inside are read back from their own bytes under the same condition. -/
theorem signatures_local_iff (options : SignatureOptions) (blob : List UInt8) :
    (∀ m p, (MethodSig.parser options.limit).run (Parser.new blob options) = .ok m p →
      (DecidedBy (MethodSig.parseWith · options) (fun m raw => { m with raw }) m
          (blob.take p.pos) ↔ (MethodSig.grammar options.limit).Roomy (blob.take p.pos)) ∧
        ReparsedIff options m.methods) ∧
    (∀ sig p, (FieldSig.parser options.limit blob).run (Parser.new blob options) = .ok sig p →
      (DecidedBy (FieldSig.parseWith · options) (fun sig raw => { sig with raw }) sig
          (blob.take p.pos) ↔ (FieldSig.grammar options.limit blob).Roomy (blob.take p.pos)) ∧
        ReparsedIff options sig.methods) ∧
    (∀ sig p, (LocalVarSig.parser options.limit blob).run (Parser.new blob options) =
        .ok sig p →
      (DecidedBy (LocalVarSig.parseWith · options) (fun sig raw => { sig with raw }) sig
          (blob.take p.pos) ↔ (LocalVarSig.grammar options.limit blob).Roomy (blob.take p.pos)) ∧
        ReparsedIff options sig.methods) ∧
    (∀ sig p, (PropertySig.parser options.limit blob).run (Parser.new blob options) =
        .ok sig p →
      (DecidedBy (PropertySig.parseWith · options) (fun sig raw => { sig with raw }) sig
          (blob.take p.pos) ↔ (PropertySig.grammar options.limit blob).Roomy (blob.take p.pos)) ∧
        ReparsedIff options sig.methods) ∧
    (∀ sig p, (MethodSpecSig.parser options.limit blob).run (Parser.new blob options) =
        .ok sig p →
      (DecidedBy (MethodSpecSig.parseWith · options) (fun sig raw => { sig with raw }) sig
          (blob.take p.pos) ↔
        (MethodSpecSig.grammar options.limit blob).Roomy (blob.take p.pos)) ∧
        ReparsedIff options sig.methods) ∧
    (∀ sig p, (TypeSpecSig.parser options.limit blob).run (Parser.new blob options) =
        .ok sig p →
      (DecidedBy (TypeSpecSig.parseWith · options) (fun sig raw => { sig with raw }) sig
          (blob.take p.pos) ↔ (TypeSpecSig.grammar options.limit blob).Roomy (blob.take p.pos)) ∧
        ReparsedIff options sig.methods) := by
  have hsound := methodCollector_sound options.limit
  refine ⟨?_, ?_, ?_, ?_, ?_, ?_⟩
  · intro m p hrun
    have haccepts := MethodSig.accepts options.limit
    obtain ⟨ms, hR⟩ := Parser.spelled_of_run haccepts hrun
    refine ⟨Parser.decidedBy_iff (x := fun _ => MethodSig.parser options.limit)
      (fun _ => haccepts) ?_ hrun, MethodSig.reparsed_iff (hsound.finds_method m _ ms hR)⟩
    rintro _ ⟨raw, _⟩ _ _ hR _
    exact ⟨raw, hR⟩
  · intro sig p hrun
    have haccepts := FieldSig.accepts options.limit
    obtain ⟨ms, hR⟩ := Parser.spelled_of_run (haccepts blob) hrun
    exact ⟨Parser.decidedBy_iff haccepts (spelled_of_raw (FieldSig.grammar_raw _)) hrun,
      MethodSig.reparsed_iff (hsound.finds_field blob sig _ ms hR)⟩
  · intro sig p hrun
    have haccepts := LocalVarSig.accepts options.limit
    obtain ⟨ms, hR⟩ := Parser.spelled_of_run (haccepts blob) hrun
    exact ⟨Parser.decidedBy_iff haccepts (spelled_of_raw (LocalVarSig.grammar_raw _)) hrun,
      MethodSig.reparsed_iff (hsound.finds_locals blob sig _ ms hR)⟩
  · intro sig p hrun
    have haccepts := PropertySig.accepts options.limit
    obtain ⟨ms, hR⟩ := Parser.spelled_of_run (haccepts blob) hrun
    have hmethods : Grammar.FoundIn (Spelled options.limit) sig.methods (blob.take p.pos) := by
      rw [PropertySig.methods, Param.methodsAll_eq]
      exact hsound.finds_property blob sig _ ms hR
    exact ⟨Parser.decidedBy_iff haccepts (spelled_of_raw (PropertySig.grammar_raw _)) hrun,
      MethodSig.reparsed_iff hmethods⟩
  · intro sig p hrun
    have haccepts := MethodSpecSig.accepts options.limit
    obtain ⟨ms, hR⟩ := Parser.spelled_of_run (haccepts blob) hrun
    have hmethods : Grammar.FoundIn (Spelled options.limit) sig.methods (blob.take p.pos) := by
      rw [MethodSpecSig.methods, SigType.methodsAll_eq]
      exact hsound.finds_methodSpec blob sig _ ms hR
    exact ⟨Parser.decidedBy_iff haccepts (spelled_of_raw (MethodSpecSig.grammar_raw _)) hrun,
      MethodSig.reparsed_iff hmethods⟩
  · intro sig p hrun
    have haccepts := TypeSpecSig.accepts options.limit
    obtain ⟨ms, hR⟩ := Parser.spelled_of_run (haccepts blob) hrun
    exact ⟨Parser.decidedBy_iff haccepts (spelled_of_raw (TypeSpecSig.grammar_raw _)) hrun,
      MethodSig.reparsed_iff (hsound.finds_typeSpec blob sig _ ms hR)⟩

/-- An array of rank 5 that the three bytes after it make acceptable, and a function pointer
that returns one of rank 5. -/
theorem signatures_not_local :
    (¬ ∀ (options : SignatureOptions) (blob : List UInt8) (sig : TypeSpecSig) (p : Parser),
      (TypeSpecSig.parser options.limit blob).run (Parser.new blob options) = .ok sig p →
      DecidedBy (TypeSpecSig.parseWith · options) (fun sig raw => { sig with raw }) sig
        (blob.take p.pos)) ∧
    (¬ ∀ (options : SignatureOptions) (blob : List UInt8) (sig : MethodSpecSig) (p : Parser),
      (MethodSpecSig.parser options.limit blob).run (Parser.new blob options) = .ok sig p →
      ∀ m ∈ sig.methods, MethodSig.parseWith m.raw options = .ok m) := by
  refine ⟨?_, ?_⟩
  · intro h
    let blob : List UInt8 := [0x14, 0x08, 0x05, 0x00, 0x00, 0x01, 0x02, 0x03]
    obtain ⟨raw, hparse⟩ := h .default blob ⟨blob, .array .i4 ⟨5, [], []⟩⟩
      ((Parser.new blob .default).advance 5) rfl []
    cases hparse
  · intro h
    let blob : List UInt8 := [0x0A, 0x02, 0x1B, 0x00, 0x00, 0x14, 0x08, 0x05, 0x00, 0x00,
      0x14, 0x08, 0x00, 0x00, 0x00]
    let m : MethodSig := ⟨[0x00, 0x00, 0x14, 0x08, 0x05, 0x00, 0x00], .default, false, false,
      ⟨[], false, .array .i4 ⟨5, [], []⟩⟩, [], []⟩
    have hparse := h .default blob ⟨blob, [.fnPtr m, .array .i4 ⟨0, [], []⟩]⟩
      ((Parser.new blob .default).advance 15) rfl m (List.mem_cons_self ..)
    cases hparse

/-- `void ()`. -/
def action : MethodSig where
  raw := [0x00, 0x00, 0x01]
  callingConvention := .default
  hasThis := false
  explicitThis := false
  returnType := ⟨[], false, .void⟩
  params := []
  varargParams := []

/-- `void ()`, and a pointer to it in each of the other signatures, with a byte after it. -/
theorem signatures_local_action :
    DecidedBy (MethodSig.parseWith · .default) (fun m raw => { m with raw }) action
      [0x00, 0x00, 0x01] ∧
    DecidedBy (FieldSig.parseWith · .default) (fun sig raw => { sig with raw })
      ⟨[0x06, 0x1B, 0x00, 0x00, 0x01, 0xFF], [], .fnPtr action⟩ [0x06, 0x1B, 0x00, 0x00, 0x01] ∧
    DecidedBy (LocalVarSig.parseWith · .default) (fun sig raw => { sig with raw })
      ⟨[0x07, 0x01, 0x1B, 0x00, 0x00, 0x01, 0xFF], [⟨[], false, false, .fnPtr action⟩]⟩
      [0x07, 0x01, 0x1B, 0x00, 0x00, 0x01] ∧
    DecidedBy (PropertySig.parseWith · .default) (fun sig raw => { sig with raw })
      ⟨[0x08, 0x00, 0x1B, 0x00, 0x00, 0x01, 0xFF], false, ⟨[], false, .fnPtr action⟩, []⟩
      [0x08, 0x00, 0x1B, 0x00, 0x00, 0x01] ∧
    DecidedBy (MethodSpecSig.parseWith · .default) (fun sig raw => { sig with raw })
      ⟨[0x0A, 0x01, 0x1B, 0x00, 0x00, 0x01, 0xFF], [.fnPtr action]⟩
      [0x0A, 0x01, 0x1B, 0x00, 0x00, 0x01] ∧
    DecidedBy (TypeSpecSig.parseWith · .default) (fun sig raw => { sig with raw })
      ⟨[0x1B, 0x00, 0x00, 0x01, 0xFF], .fnPtr action⟩ [0x1B, 0x00, 0x00, 0x01] := by
  have h := signatures_local_iff .default
  refine ⟨?_, ?_, ?_, ?_, ?_, ?_⟩
  · exact ((h [0x00, 0x00, 0x01, 0xFF]).1 action
      ((Parser.new _ .default).advance 3) rfl).1.mpr
      (Parser.roomy_of_parsed (MethodSig.accepts _) (b := action) rfl)
  · exact ((h [0x06, 0x1B, 0x00, 0x00, 0x01, 0xFF]).2.1 _
      ((Parser.new _ .default).advance 5) rfl).1.mpr
      (Parser.roomy_of_parsed (FieldSig.accepts _ _) (b := ⟨_, [], .fnPtr action⟩) rfl)
  · exact ((h [0x07, 0x01, 0x1B, 0x00, 0x00, 0x01, 0xFF]).2.2.1 _
      ((Parser.new _ .default).advance 6) rfl).1.mpr
      (Parser.roomy_of_parsed (LocalVarSig.accepts _ _)
        (b := ⟨_, [⟨[], false, false, .fnPtr action⟩]⟩) rfl)
  · exact ((h [0x08, 0x00, 0x1B, 0x00, 0x00, 0x01, 0xFF]).2.2.2.1 _
      ((Parser.new _ .default).advance 6) rfl).1.mpr
      (Parser.roomy_of_parsed (PropertySig.accepts _ _)
        (b := ⟨_, false, ⟨[], false, .fnPtr action⟩, []⟩) rfl)
  · exact ((h [0x0A, 0x01, 0x1B, 0x00, 0x00, 0x01, 0xFF]).2.2.2.2.1 _
      ((Parser.new _ .default).advance 6) rfl).1.mpr
      (Parser.roomy_of_parsed (MethodSpecSig.accepts _ _) (b := ⟨_, [.fnPtr action]⟩) rfl)
  · exact ((h [0x1B, 0x00, 0x00, 0x01, 0xFF]).2.2.2.2.2 _
      ((Parser.new _ .default).advance 4) rfl).1.mpr
      (Parser.roomy_of_parsed (TypeSpecSig.accepts _ _) (b := ⟨_, .fnPtr action⟩) rfl)

end Cildec
