import Cildec.Display.Terminates
import Cildec.Metadata.Extent
import Cildec.Tables.Rounds

/-!
# What a name can fail with

`token` recovers from every error of the crate, so the calls that promise a text fail only
where a lookup among the tables leaves its range (`calls_raise`). The lookups of a parsed
region below `2 ^ 32` bytes do not (`lookupFaults_of_parse`).

* `names_terminate`: every call ends, and what lies on a chain of nested calls is bounded.
-/

namespace Cildec

open Wire

/-- The faults of the lookups that names are found with. -/
structure Tables.LookupFaults (A : Fault → Prop) (t : Tables) : Prop where
  error : ∀ e, A (.error e)
  nested : ∀ key, Faults A (t.rowsWithKey .nestedClass key)
  method : ∀ rid, Faults A (t.typeOfMethod rid)
  field : ∀ rid, Faults A (t.typeOfField rid)

/-- No lookup uses up its rounds. -/
theorem Tables.lookups_finish (t : Tables) : t.LookupFaults fun f => f ≠ .rounds where
  error e h := by cases h
  nested key := t.rowsWithKey_finishes .nestedClass key
  method rid := t.ownerOfList_finishes 5 .typeDef .methodDef rid
  field rid := t.ownerOfList_finishes 4 .typeDef .field rid

/-- An error of the crate. -/
def Fault.isError : Fault → Prop
  | .error _ => True
  | _ => False

theorem Tables.FindsOwner.faults {range : Nat → Result RidRange} {member : Nat}
    {found : Checked (Option Nat)} (h : FindsOwner range member found) (A : Fault → Prop) :
    Faults A found := by
  rcases h with ⟨owner, r, rfl, _, _⟩ | ⟨rfl, _⟩
  · exact Faults.ok _
  · exact Faults.ok _

theorem Tables.empty_lookups (A : Fault → Prop) (hA : ∀ e, A (.error e)) :
    Tables.empty.LookupFaults A where
  error := hA
  nested _ := Faults.ok []
  method _ := Faults.ok none
  field _ := Faults.ok none

/-- In a parsed stream below `2 ^ 32` bytes the lookups only fail with errors of the crate. -/
theorem Tables.lookups_of_parse {data : List UInt8} {base : Nat} {uncompressed : Bool}
    {s : Strictness} {ds ds' : List Diagnostic} {t : Tables} (hlen : data.length < 2 ^ 32)
    (hrun : parse data base uncompressed s ds = .ok (t, ds')) :
    t.LookupFaults Fault.isError := by
  obtain ⟨⟨rfl, _, hl⟩, hverified⟩ := parse_spec hrun
  refine ⟨fun e => trivial, fun key => ?_, fun rid => ?_, fun rid => ?_⟩
  · have hcount := hl.rowCount_lt hlen .nestedClass
    rw [hl.rowsWithKey_spec hverified rfl (fun _ => by omega) key]
    exact Faults.ok _
  · exact (hl.ownerOfList_finds hlen (by decide) .methodDef rid).faults _
  · exact (hl.ownerOfList_finds hlen (by decide) .field rid).faults _

theorem lookupFaults_of_parse {bytes : List UInt8} {base : Nat} {strictness : Strictness}
    {m : Metadata} (hparse : Metadata.parseAt bytes base strictness = .ok m)
    (hlen : bytes.length < 2 ^ 32) : m.tables.LookupFaults Fault.isError := by
  rcases (Metadata.extent_of_parseAt hparse).tables with hempty | hfound
  · rw [hempty]
    exact Tables.empty_lookups _ fun e => trivial
  · obtain ⟨data, _, _, _, _, hdata, htables⟩ := hfound
    exact Tables.lookups_of_parse (Nat.lt_of_le_of_lt hdata hlen) htables

namespace Names

variable {m : Metadata} {A : Fault → Prop} {depth : Nat}

/-! ## Types that are defined here -/

theorem row_faults (hA : m.tables.LookupFaults A) (table : TableId) (rid : Nat) :
    Faults A (row m table rid) := Faults.ofResult hA.error _

theorem enclosingType_faults (hA : m.tables.LookupFaults A) (rid : Nat) :
    Faults A (m.tables.enclosingType rid) := by
  refine ((hA.nested rid).bind fun rids _ => Faults.ok rids.head?).bind fun found _ => ?_
  cases found with
  | none => exact Faults.ok none
  | some rid => exact (Faults.ofResult hA.error _).bind fun outer _ => Faults.ok _

theorem typeDefName_faults (hA : m.tables.LookupFaults A) (rid : Nat) :
    Faults A (typeDefName m rid) :=
  (row_faults hA .typeDef rid).bind fun _ _ => Faults.ok _

theorem outward_faults (hA : m.tables.LookupFaults A) :
    ∀ rounds current name, Faults A (outward m rounds current name)
  | 0, _, name => Faults.ok name
  | rounds + 1, current, name => by
      refine (enclosingType_faults hA current).bind fun found _ => ?_
      cases found with
      | none => exact Faults.ok name
      | some outer =>
          simp only
          split
          · exact Faults.ok name
          · exact (typeDefName_faults hA outer).bind fun _ _ => outward_faults hA rounds _ _

theorem typeDef_faults (hA : m.tables.LookupFaults A) (rid : Nat) :
    Faults A (typeDef m rid) :=
  (typeDefName_faults hA rid).bind fun _ _ => outward_faults hA _ _ _

theorem ownerName_faults (hA : m.tables.LookupFaults A) {owner : Checked (Option Nat)}
    (howner : Faults A owner) : Faults A (ownerName m owner) := by
  refine howner.bind fun found _ => ?_
  cases found with
  | none => exact Faults.ok _
  | some rid => exact typeDef_faults hA rid

/-! ## Calls -/

/-- The calls that promise a text. -/
def Call.isTotal : Call → Bool
  | .typeRef _ _ => false
  | .tryToken _ _ => false
  | _ => true

/-- What a call may fail with: where it promises a text, no error of the crate. -/
def Call.MayRaise (A : Fault → Prop) (c : Call) (f : Fault) : Prop :=
  A f ∧ (c.isTotal = true → ¬ f.isError)

/-- A call that promises a text may be made anywhere. -/
theorem raises_call {c c' : Call} (h : c'.isTotal = true) :
    Script.Raises (c.MayRaise A) (Call.MayRaise A) (Script.call c' : Body String) :=
  Script.Raises.call fun _ he => ⟨he.1, fun _ => he.2 h⟩

theorem raises_calls {c : Call} {cs : List Call} (h : ∀ c' ∈ cs, c'.isTotal = true) :
    Script.Raises (c.MayRaise A) (Call.MayRaise A) (Script.calls cs : Body (List String)) :=
  Script.Raises.calls fun c' hc' _ he => ⟨he.1, fun _ => he.2 (h c' hc')⟩

/-- A step without a call may fail with what is allowed where no text is promised. -/
theorem raises_ofExcept {α : Type} {c : Call} (hc : c.isTotal = false) {x : Checked α}
    (hx : Faults A x) :
    Script.Raises (c.MayRaise A) (Call.MayRaise A) (Script.ofExcept x : Body α) := by
  refine Script.Raises.ofExcept fun e he => ⟨hx e he, fun h => ?_⟩
  rw [hc] at h
  cases h

theorem raises_tooDeep {c : Call} {context : String} (hc : c.isTotal = false)
    (hA : m.tables.LookupFaults A) :
    Script.Raises (c.MayRaise A) (Call.MayRaise A)
      (Script.fail (tooDeep context) : Body String) := by
  refine Script.Raises.fail ⟨hA.error _, fun h => ?_⟩
  rw [hc] at h
  cases h

/-- A call whose failure is passed on, where no text is promised. -/
theorem raises_forward {c c' : Call} (hc : c.isTotal = false) :
    Script.Raises (c.MayRaise A) (Call.MayRaise A) (Script.call c' : Body String) := by
  refine Script.Raises.call fun e he => ⟨he.1, fun h => ?_⟩
  rw [hc] at h
  cases h

theorem raises_typeRef (hA : m.tables.LookupFaults A) {rid : Nat} :
    Script.Raises ((Call.typeRef depth rid).MayRaise A) (Call.MayRaise A)
      (typeRef m depth rid) := by
  unfold typeRef
  split
  · exact raises_tooDeep rfl hA
  · refine (raises_ofExcept rfl (row_faults hA _ _)).bind fun row => ?_
    unfold scopedName
    split
    · exact Script.Raises.done _
    · split
      · exact (raises_ofExcept rfl (row_faults hA _ _)).bind fun _ => Script.Raises.done _
      · exact (raises_ofExcept rfl (row_faults hA _ _)).bind fun _ => Script.Raises.done _
      · exact (raises_forward rfl).bind fun _ => Script.Raises.done _
      · exact Script.Raises.done _

/-- `token` recovers from every error of the crate. -/
theorem raises_token {t : Token} :
    Script.Raises ((Call.token depth t).MayRaise A) (Call.MayRaise A) (token depth t) := by
  refine Script.Raises.attempt_bind fun r hr => ?_
  split
  · exact Script.Raises.done _
  · exact Script.Raises.done _
  · rename_i fault hnot
    refine Script.Raises.fail ⟨(hr fault rfl).1, fun _ herror => ?_⟩
    cases fault with
    | error e => exact hnot e rfl
    | overflow => exact herror
    | rounds => exact herror

theorem raises_tryToken (hA : m.tables.LookupFaults A) {t : Token} :
    Script.Raises ((Call.tryToken depth t).MayRaise A) (Call.MayRaise A)
      (tryToken m depth t) := by
  have hrow : ∀ table rid, Script.Raises ((Call.tryToken depth t).MayRaise A)
      (Call.MayRaise A) (Script.ofExcept (row m table rid) : Body (Row table)) :=
    fun table rid => raises_ofExcept rfl (row_faults hA table rid)
  have hblob : ∀ index, Script.Raises ((Call.tryToken depth t).MayRaise A)
      (Call.MayRaise A) (Script.ofExcept (Checked.ofResult (m.blobs.get index)) : Body _) :=
    fun index => raises_ofExcept rfl (Faults.ofResult hA.error _)
  have howner : ∀ {owner}, Faults A owner → Script.Raises ((Call.tryToken depth t).MayRaise A)
      (Call.MayRaise A) (Script.ofExcept (ownerName m owner) : Body String) :=
    fun h => raises_ofExcept rfl (ownerName_faults hA h)
  -- by the table of the token, as in the source
  unfold tryToken
  split
  · exact raises_tooDeep rfl hA
  · split
    · exact raises_ofExcept rfl (typeDef_faults hA _)
    · exact raises_forward rfl
    · refine (hrow _ _).bind fun row => (hblob _).bind fun blob => ?_
      split
      · exact raises_forward rfl
      · exact Script.Raises.done _
    · exact (hrow _ _).bind fun _ => (howner (hA.method _)).bind fun _ => Script.Raises.done _
    · exact (hrow _ _).bind fun _ => (howner (hA.field _)).bind fun _ => Script.Raises.done _
    · exact (hrow _ _).bind fun _ => (raises_forward rfl).bind fun _ => Script.Raises.done _
    · refine (hrow _ _).bind fun row => (raises_forward rfl).bind fun base =>
        (hblob _).bind fun blob => ?_
      split
      · refine (raises_calls fun c' hc' => ?_).bind fun _ => Script.Raises.done _
        obtain ⟨ty, _, rfl⟩ := List.mem_map.mp hc'
        rfl
      · exact Script.Raises.done _
    · exact (hrow _ _).bind fun _ => Script.Raises.done _
    · exact (hrow _ _).bind fun _ => Script.Raises.done _
    · exact Script.Raises.done _

theorem raises_modsFrom {c : Call} : ∀ (ms : List CustomMod) (out : String),
    Script.Raises (c.MayRaise A) (Call.MayRaise A) (modsFrom depth ms out)
  | [], out => Script.Raises.done out
  | _ :: ms, _ => (raises_call rfl).bind fun _ => raises_modsFrom ms _

theorem raises_modified {c : Call} {ms : List CustomMod} {inner : SigType} {suffix : String} :
    Script.Raises (c.MayRaise A) (Call.MayRaise A) (modified depth ms inner suffix) :=
  (raises_call rfl).bind fun _ => (raises_call rfl).bind fun _ => Script.Raises.done _

theorem raises_type {c : Call} (ty : SigType) :
    Script.Raises (c.MayRaise A) (Call.MayRaise A) (type_ depth ty) := by
  unfold type_
  split
  · exact raises_modified
  · exact (raises_call rfl).bind fun _ => Script.Raises.done _
  · exact (raises_call rfl).bind fun _ => Script.Raises.done _
  · exact (raises_call rfl).bind fun _ => Script.Raises.done _
  · exact raises_modified
  · exact (raises_call rfl).bind fun _ => Script.Raises.done _
  · refine (raises_calls fun c' hc' => ?_).bind fun _ =>
      (raises_call rfl).bind fun _ => Script.Raises.done _
    obtain ⟨ty, _, rfl⟩ := List.mem_map.mp hc'
    rfl
  · exact (raises_call rfl).bind fun _ => Script.Raises.done _
  · exact raises_modified
  · exact (raises_call rfl).bind fun _ => Script.Raises.done _
  · exact Script.Raises.done _

theorem raises_methodSig {c : Call} (sig : MethodSig) (name : String) :
    Script.Raises (c.MayRaise A) (Call.MayRaise A) (methodSig depth sig name) := by
  have hparams : ∀ ps : List Param, Script.Raises (c.MayRaise A) (Call.MayRaise A)
      (Script.calls (ps.map fun p => .param depth p) : Body (List String)) := by
    intro ps
    refine raises_calls fun c' hc' => ?_
    obtain ⟨p, _, rfl⟩ := List.mem_map.mp hc'
    rfl
  exact (raises_call rfl).bind fun _ => (hparams _).bind fun _ =>
    (hparams _).bind fun _ => Script.Raises.done _

theorem calls_raise (hA : m.tables.LookupFaults A) (c : Call) :
    Script.Raises (c.MayRaise A) (Call.MayRaise A) (body m c) := by
  cases c with
  | typeRef depth rid => exact raises_typeRef hA
  | token depth t => exact raises_token
  | tryToken depth t => exact raises_tryToken hA
  | type_ depth ty => exact raises_type ty
  | mods depth ms => exact raises_modsFrom _ _
  | param depth p =>
      exact (raises_call rfl).bind fun _ => (raises_call rfl).bind fun _ => Script.Raises.done _
  | methodSig depth sig name => exact raises_methodSig sig name

/-- The fault a call ends with is one it may end with. -/
theorem returns_fault {c : Call} {f : Fault} (hA : m.tables.LookupFaults A)
    (h : Script.Returns (body m) c (.error f)) : c.MayRaise A f := by
  obtain ⟨fuel, hfuel⟩ := h
  exact Script.eval_raises (calls_raise hA) hfuel

/-- In a region that was parsed from less than `2 ^ 32` bytes, a call that promises a text
returns one. -/
theorem total_returns {bytes : List UInt8} {base : Nat} {strictness : Strictness}
    (hparse : Metadata.parseAt bytes base strictness = .ok m) (hlen : bytes.length < 2 ^ 32)
    {c : Call} (htotal : c.isTotal = true) : ∃ name, Script.Returns (body m) c (.ok name) := by
  obtain ⟨x, hx⟩ := calls_end m c
  cases x with
  | ok name => exact ⟨name, hx⟩
  | error f =>
      obtain ⟨herror, hnot⟩ := returns_fault (lookupFaults_of_parse hparse hlen) hx
      exact (hnot htotal herror).elim

/-! ## Rendering terminates -/

/-- Every call returns, whatever the rows refer to: with a text, where one is promised and the
region was parsed from less than `2 ^ 32` bytes. From a helper within the limit, which a new
one is, no helper beyond it is constructed, a chain of nested calls follows at most `maxDepth`
tokens, and it renders no more types behind one of them than the recursion limit. -/
theorem names_terminate (m : Metadata) (c : Call) :
    (∃ x, Script.Returns (body m) c x ∧ x ≠ .error .rounds) ∧
    (∀ bytes base strictness, Metadata.parseAt bytes base strictness = .ok m →
      bytes.length < 2 ^ 32 → c.isTotal = true →
        ∃ name, Script.Returns (body m) c (.ok name)) ∧
    (c.depth ≤ maxDepth → ∀ cs, List.IsChain (Nests m) (c :: cs) →
      (∀ c' ∈ c :: cs, c'.depth ≤ maxDepth ∧ ∀ depth ∈ c'.helpers, depth ≤ maxDepth) ∧
      hops (c :: cs) ≤ maxDepth ∧
      typesAt c.depth (c :: cs) ≤ c.levels ∧
      ∀ depth, c.depth < depth → typesAt depth (c :: cs) ≤ recursionLimit) := by
  obtain ⟨x, hx⟩ := calls_end m c
  refine ⟨⟨x, hx, ?_⟩, fun _ _ _ hparse hlen => total_returns hparse hlen, ?_⟩
  · rintro rfl
    exact (returns_fault m.tables.lookups_finish hx).1 rfl
  · intro hdepth cs hchain
    refine ⟨fun c' hmem => ⟨chain_depth hchain hdepth c' hmem, helpers_le c'⟩, ?_, ?_, ?_⟩
    · have := chain_hops hchain hdepth
      omega
    · have := chain_types hchain c.depth
      rwa [Call.typeBound, if_neg (Nat.lt_irrefl _), if_pos rfl] at this
    · intro depth hlt
      have := chain_types hchain depth
      rwa [Call.typeBound, if_neg (Nat.lt_asymm hlt), if_neg (Nat.ne_of_gt hlt)] at this

/-- A region whose one `TypeSpec` is an instantiation of itself, with itself. -/
def selfReference : List UInt8 :=
  [0x42, 0x53, 0x4A, 0x42, 1, 0, 1, 0, 0, 0, 0, 0, 4, 0, 0, 0, 0x76, 0x34, 0, 0, 0, 0, 2, 0,
    52, 0, 0, 0, 30, 0, 0, 0, 0x23, 0x7E, 0, 0,
    82, 0, 0, 0, 8, 0, 0, 0, 0x23, 0x42, 0x6C, 0x6F, 0x62, 0, 0, 0,
    0, 0, 0, 0, 2, 0, 0, 1, 0, 0, 0, 8, 0, 0, 0, 0, 0, 0, 0, 0, 0, 0, 0, 0, 1, 0, 0, 0, 1, 0,
    0, 6, 0x15, 0x12, 6, 1, 0x12, 6]

theorem selfReference_parses : (Metadata.parse selfReference).isOk = true := by
  decide +kernel

/-- The name of that `TypeSpec` is found, within the limits. -/
theorem names_terminate_on_cycle : ∃ m, Metadata.parse selfReference = .ok m ∧
    (∃ name, Script.Returns (body m) (.token 0 (Token.new .typeSpec 1)) (.ok name)) ∧
    hops [Call.token 0 (Token.new .typeSpec 1), .tryToken 0 (Token.new .typeSpec 1)] ≤
      maxDepth := by
  obtain ⟨m, hparse⟩ := exists_ok_of_isOk selfReference_parses
  obtain ⟨_, hname, hchain⟩ := names_terminate m (.token 0 (Token.new .typeSpec 1))
  refine ⟨m, hparse, hname _ _ _ hparse (by decide) rfl, ?_⟩
  exact (hchain (Nat.zero_le _) [.tryToken 0 (Token.new .typeSpec 1)]
    (.cons_cons (.here _ _) (.singleton _))).2.1

end Names

end Cildec
