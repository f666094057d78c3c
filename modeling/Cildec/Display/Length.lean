import Cildec.Display.Outline

/-!
# How long a name is

A rendered text is as long as its outline says, the names of the tokens in it included
(`length_rendered` for signatures, `follows_tryToken` for tokens). Unfolded over the hops that
are left, the characters of a name are those that the tokens on its paths have of their own
(`length_token`).
-/

namespace Cildec

open Wire

namespace Names

variable {m : Metadata} {depth : Nat} {L : Token → Nat}

/-- A call returns a text. -/
def Renders (m : Metadata) (c : Call) (name : String) : Prop :=
  Script.Returns (body m) c (.ok name)

/-- The outcomes of all calls. -/
abbrev answers (m : Metadata) : Call → Option (Except Fault String) :=
  Script.outcome (body m) Call.rank

theorem answers_iff {c : Call} {x : Except Fault String} :
    answers m c = some x ↔ Script.Returns (body m) c x :=
  Script.outcome_iff fun _ _ h => rank_lt h

theorem returns_iff {c : Call} {x : Except Fault String} :
    Script.Returns (body m) c x ↔ (body m c).run (answers m) = some x :=
  Script.returns_iff_run fun _ _ h => rank_lt h

/-! ## Signatures -/

/-- On a helper of a depth, the name of a token takes `L` characters. -/
def TokensTake (m : Metadata) (depth : Nat) (L : Token → Nat) : Prop :=
  ∀ t name, Renders m (.token depth t) name → name.length = L t

theorem run_call_then {c : Call} {f : String → String} {text : String}
    (h : (Script.call c >>= fun name => pure (f name) : Body String).run (answers m) =
      some (.ok text)) : ∃ name, Renders m c name ∧ text = f name := by
  obtain ⟨name, hname, h⟩ := Script.run_bind_ok_iff.mp h
  cases h
  exact ⟨name, answers_iff.mp (Script.run_call_ok_iff.mp hname), rfl⟩

theorem length_calls {α : Type} {f : α → Call} {o : α → Outline} {xs : List α}
    (h : ∀ x ∈ xs, ∀ name, Renders m (f x) name → name.length = (o x).length L)
    {names : List String}
    (hrun : (Script.calls (xs.map f) : Body (List String)).run (answers m) = some (.ok names)) :
    List.Forall₂ (fun part o => part.length = Outline.length L o) names (xs.map o) := by
  have hnames := Script.run_calls_ok_iff.mp hrun
  clear hrun
  induction xs generalizing names with
  | nil =>
      cases hnames
      exact .nil
  | cons x xs ih =>
      obtain ⟨hx, hxs⟩ := List.forall_mem_cons.mp h
      cases hnames with
      | cons hname hnames => exact .cons (hx _ (answers_iff.mp hname)) (ih hxs hnames)

/-- The characters of a modifier. -/
def modLength (L : Token → Nat) (mod : CustomMod) : Nat :=
  (" " ++ mod.keyword ++ "(").length + L mod.typeToken + ")".length

theorem length_outlineAll (ms : List CustomMod) :
    (CustomMod.outlineAll ms).length L = (ms.map (modLength L)).sum := by
  induction ms with
  | nil => rfl
  | cons mod ms ih =>
      simp only [CustomMod.outlineAll, Outline.length_append, Outline.length_text,
        Outline.length_token, ih, List.map_cons, List.sum_cons, modLength]
      omega

theorem length_modsFrom (hL : TokensTake m depth L) (ms : List CustomMod) :
    ∀ {out text : String}, (modsFrom depth ms out).run (answers m) = some (.ok text) →
      text.length = out.length + (ms.map (modLength L)).sum := by
  induction ms with
  | nil =>
      intro out text h
      cases h
      rfl
  | cons mod ms ih =>
      intro out text h
      obtain ⟨name, hname, h⟩ := Script.run_bind_ok_iff.mp h
      have htoken := hL _ _ (answers_iff.mp (Script.run_call_ok_iff.mp hname))
      rw [ih h, List.map_cons, List.sum_cons, modLength]
      simp only [String.length_append, htoken]
      omega

theorem length_mods (hL : TokensTake m depth L) {ms : List CustomMod} {text : String}
    (h : Renders m (.mods depth ms) text) :
    text.length = (CustomMod.outlineAll ms).length L := by
  rw [length_modsFrom hL _ (returns_iff.mp h), length_outlineAll, List.map_reverse,
    List.sum_reverse]
  exact Nat.zero_add _

theorem length_modified (hL : TokensTake m depth L) {ms : List CustomMod} {inner : SigType}
    (hinner : ∀ name, Renders m (.type_ depth inner) name →
      name.length = inner.outline.length L) {suffix text : String}
    (h : (modified depth ms inner suffix).run (answers m) = some (.ok text)) :
    text.length =
      (inner.outline ++ CustomMod.outlineAll ms ++ Outline.text suffix).length L := by
  obtain ⟨name, hname, h⟩ := Script.run_bind_ok_iff.mp h
  obtain ⟨modifiers, hmods, rfl⟩ := run_call_then h
  rw [String.length_append, String.length_append, Outline.length_append, Outline.length_append,
    Outline.length_text, length_mods hL hmods,
    hinner _ (answers_iff.mp (Script.run_call_ok_iff.mp hname))]

/-- What the calls one level down render is as long as its outlines say. -/
structure Below (m : Metadata) (depth : Nat) (L : Token → Nat) (n : Nat) : Prop where
  type_ : ∀ ty name, ty.depth ≤ n → Renders m (.type_ depth ty) name →
    name.length = ty.outline.length L
  method : ∀ sig text name, sig.depth ≤ n → Renders m (.methodSig depth sig text) name →
    name.length = (sig.outline text).length L

variable {n : Nat}

theorem Below.type_succ (hL : TokensTake m depth L) (hbelow : Below m depth L n) {ty : SigType}
    {name : String} (hdepth : ty.depth ≤ n + 1) (h : Renders m (.type_ depth ty) name) :
    name.length = ty.outline.length L := by
  have hrun := returns_iff.mp h
  have hinner : ∀ {inner : SigType}, inner.depth + 1 ≤ n + 1 → ∀ name,
      Renders m (.type_ depth inner) name → name.length = inner.outline.length L :=
    fun hle name => hbelow.type_ _ name (Nat.le_of_succ_le_succ hle)
  cases ty with
  | ptr mods inner => exact length_modified hL (hinner hdepth) hrun
  | szArray mods element => exact length_modified hL (hinner hdepth) hrun
  | modified mods inner => exact length_modified hL (hinner hdepth) hrun
  | byRef inner =>
      obtain ⟨text, htext, rfl⟩ := run_call_then hrun
      simp only [SigType.outline, String.length_append, Outline.length_append,
        Outline.length_text, hinner hdepth text htext]
  | pinned inner =>
      obtain ⟨text, htext, rfl⟩ := run_call_then hrun
      simp only [SigType.outline, String.length_append, Outline.length_append,
        Outline.length_text, hinner hdepth text htext]
  | array element shape =>
      obtain ⟨text, htext, rfl⟩ := run_call_then hrun
      simp only [SigType.outline, String.length_append, Outline.length_append,
        Outline.length_text, hinner hdepth text htext]
  | valueType token =>
      obtain ⟨text, htext, rfl⟩ := run_call_then hrun
      simp only [SigType.outline, String.length_append, Outline.length_append,
        Outline.length_text, Outline.length_token, hL token text htext]
  | class_ token =>
      obtain ⟨text, htext, rfl⟩ := run_call_then hrun
      simp only [SigType.outline, String.length_append, Outline.length_append,
        Outline.length_text, Outline.length_token, hL token text htext]
  | genericInst isValueType definition args =>
      obtain ⟨texts, htexts, hrun⟩ := Script.run_bind_ok_iff.mp hrun
      obtain ⟨text, htext, rfl⟩ := run_call_then hrun
      have hargs := length_calls (fun ty hty => hinner (Nat.succ_le_succ
        (SigType.depthAll_le.mp (Nat.le_of_succ_le_succ hdepth) ty hty))) htexts
      rw [← SigType.outlines_eq] at hargs
      simp only [SigType.outline, String.length_append, Outline.length_append,
        Outline.length_text, Outline.length_token, hL definition text htext,
        Outline.length_joined hargs]
  | fnPtr method =>
      obtain ⟨text, htext, rfl⟩ := run_call_then hrun
      simp only [SigType.outline, String.length_append, Outline.length_append,
        Outline.length_text,
        hbelow.method method "" text (Nat.le_of_succ_le_succ hdepth) htext]
  | _ =>
      cases hrun
      exact (Outline.length_text _).symm

theorem Below.param (hL : TokensTake m depth L) (hbelow : Below m depth L n) {p : Param}
    {name : String} (hdepth : p.depth ≤ n) (h : Renders m (.param depth p) name) :
    name.length = p.outline.length L := by
  obtain ⟨customMods, byRef, ty⟩ := p
  obtain ⟨text, htext, hrun⟩ := Script.run_bind_ok_iff.mp (returns_iff.mp h)
  obtain ⟨modifiers, hmods, rfl⟩ := run_call_then hrun
  have htype := hbelow.type_ ty text hdepth (answers_iff.mp (Script.run_call_ok_iff.mp htext))
  simp only [Param.outline, String.length_append, Outline.length_append, Outline.length_text,
    htype, length_mods hL hmods]

theorem Below.method_succ (hL : TokensTake m depth L) (hbelow : Below m depth L n)
    {sig : MethodSig} {text name : String} (hdepth : sig.depth ≤ n + 1)
    (h : Renders m (.methodSig depth sig text) name) :
    name.length = (sig.outline text).length L := by
  obtain ⟨raw, callingConvention, hasThis, explicitThis, returnType, params, varargParams⟩ := sig
  have hle : max returnType.depth
      (max (Param.depthAll params) (Param.depthAll varargParams)) ≤ n :=
    Nat.le_of_succ_le_succ hdepth
  obtain ⟨returned, hreturned, hrun⟩ := Script.run_bind_ok_iff.mp (returns_iff.mp h)
  obtain ⟨first, hfirst, hrun⟩ := Script.run_bind_ok_iff.mp hrun
  obtain ⟨second, hsecond, hrun⟩ := Script.run_bind_ok_iff.mp hrun
  cases hrun
  have hreturn := hbelow.param hL (show returnType.depth ≤ n by omega)
    (answers_iff.mp (Script.run_call_ok_iff.mp hreturned))
  have hparams := length_calls (fun p hp name => hbelow.param hL
    (Param.depthAll_le.mp (show Param.depthAll params ≤ n by omega) p hp)) hfirst
  have hvarargs := length_calls (fun p hp name => hbelow.param hL
    (Param.depthAll_le.mp (show Param.depthAll varargParams ≤ n by omega) p hp)) hsecond
  rw [← Param.outlines_eq] at hparams hvarargs
  have hparts : List.Forall₂ (fun part o => part.length = Outline.length L o)
      (if varargParams.isEmpty then first else first ++ "..." :: second)
      (if varargParams.isEmpty then Param.outlines params
        else Param.outlines params ++ .text "..." :: Param.outlines varargParams) := by
    cases varargParams.isEmpty with
    | true => exact hparams
    | false => exact List.rel_append hparams (.cons (Outline.length_text _).symm hvarargs)
  simp only [MethodSig.outline, String.length_append, Outline.length_append,
    Outline.length_text, hreturn, Outline.length_joined hparts]
  omega

/-- A rendered signature is as long as its outline says. -/
theorem length_rendered (hL : TokensTake m depth L) : ∀ n, Below m depth L n := by
  intro n
  induction n with
  | zero =>
      refine ⟨?_, ?_⟩
      · intro ty _ hdepth _
        exact absurd hdepth (Nat.not_le.mpr (SigType.depth_pos ty))
      · intro sig _ _ hdepth _
        exact absurd hdepth (Nat.not_le.mpr (MethodSig.depth_pos sig))
  | succ n ih =>
      exact ⟨fun _ _ hdepth h => ih.type_succ hL hdepth h,
        fun _ _ _ hdepth h => ih.method_succ hL hdepth h⟩

/-! ## Tokens -/

/-- A text is as long as the outline says; an error of the crate leaves no outline. -/
def Matches (L : Token → Nat) : Except Fault String → Checked Outline → Prop
  | .ok text, .ok o => text.length = o.length L
  | .ok _, .error _ => False
  | .error (.error _), .ok _ => False
  | .error _, _ => True

theorem Matches.error (f f' : Fault) : Matches L (.error f) (.error f') := by
  cases f <;> trivial

theorem Matches.fault {f : Fault} (h : ¬ f.isError) (o : Checked Outline) :
    Matches L (.error f) o := by
  cases f with
  | error e => exact (h trivial).elim
  | overflow => cases o <;> trivial
  | rounds => cases o <;> trivial

theorem Matches.plain (x : Except Fault String) : Matches L x (plain (some x)) := by
  cases x with
  | ok text => exact (Outline.length_text text).symm
  | error f => exact Matches.error f f

/-- Whatever a script returns matches the outline. -/
def Follows (m : Metadata) (L : Token → Nat) (s : Body String) (o : Checked Outline) : Prop :=
  ∀ x, s.run (answers m) = some x → Matches L x o

theorem Follows.done {text : String} {o : Outline} (h : text.length = o.length L) :
    Follows m L (Script.done text) (.ok o) := by
  intro x hx
  cases hx
  exact h

theorem Follows.ofExcept_bind {α : Type} {x : Checked α} {f : α → Body String}
    {g : α → Checked Outline} (h : ∀ a, Follows m L (f a) (g a)) :
    Follows m L (Script.ofExcept x >>= f) (x >>= g) := by
  cases x with
  | ok a => exact h a
  | error e =>
      intro x hx
      cases hx
      exact Matches.error e e

theorem answers_fault {c : Call} {f : Fault} (h : answers m c = some (.error f)) :
    c.MayRaise (fun f => f ≠ .rounds) f :=
  returns_fault m.tables.lookups_finish (answers_iff.mp h)

/-- What follows a part that cannot fail with an error of the crate has its value. -/
theorem Follows.bind {α : Type} {s : Body α} {f : α → Body String} {o : Checked Outline}
    (hs : Script.Raises (fun e => ¬ e.isError) (Call.MayRaise fun f => f ≠ .rounds) s)
    (h : ∀ a, s.run (answers m) = some (.ok a) → Follows m L (f a) o) :
    Follows m L (s >>= f) o := by
  intro x hx
  cases x with
  | ok text =>
      obtain ⟨a, ha, hx⟩ := Script.run_bind_ok_iff.mp hx
      exact h a ha _ hx
  | error e =>
      rcases Script.run_bind_error hx with he | ⟨a, ha, hx⟩
      · exact Matches.fault (hs _ (fun _ _ => answers_fault) e he) o
      · exact h a ha _ hx

theorem Follows.call_bind {c : Call} (hc : c.isTotal = true) {f : String → Body String}
    {o : Checked Outline} (h : ∀ name, Renders m c name → Follows m L (f name) o) :
    Follows m L (Script.call c >>= f) o :=
  Follows.bind (Script.Raises.call fun _ he => he.2 hc) fun name hname =>
    h name (answers_iff.mp (Script.run_call_ok_iff.mp hname))

theorem Follows.call {c : Call} (hc : c.isTotal = true) {o : Outline}
    (h : ∀ name, Renders m c name → name.length = o.length L) :
    Follows m L (Script.call c) (.ok o) := by
  intro x hx
  obtain ⟨outcome, houtcome, hx⟩ := Option.bind_eq_some_iff.mp hx
  cases outcome with
  | ok name =>
      cases hx
      exact h name (answers_iff.mp houtcome)
  | error e =>
      cases hx
      exact Matches.fault ((answers_fault houtcome).2 hc) _

/-- A script without calls has the same outcome without answers. -/
theorem Follows.plain {s : Body String} (h : ∀ c, ¬ s.Asks c) :
    Follows m L s (plain (s.run fun _ => none)) := by
  intro x hx
  have hrun : s.run (answers m) = s.run fun _ => none :=
    Script.run_congr fun c hc => (h c hc).elim
  rw [← hrun, hx]
  exact Matches.plain x

theorem Follows.ofExcept (x : Checked String) :
    Follows m L (Script.ofExcept x) (Names.plain (some x)) := by
  intro y hy
  cases x <;> cases hy <;> exact Matches.plain _

/-- A call whose outcome is passed on. -/
theorem Follows.forward (c : Call) :
    Follows m L (Script.call c) (Names.plain (answers m c)) := by
  intro x hx
  obtain ⟨outcome, houtcome, hx⟩ := Option.bind_eq_some_iff.mp hx
  rw [houtcome]
  cases outcome <;> cases hx <;> exact Matches.plain _

theorem follows_typeSpec {rid : Nat} (hL : TokensTake m depth L) :
    Follows m L (typeSpec m depth rid) (typeSpecOutline m rid) := by
  refine Follows.ofExcept_bind fun row => Follows.ofExcept_bind fun blob => ?_
  cases TypeSpecSig.parseWith blob .default with
  | ok sig => exact Follows.call rfl fun name => (length_rendered hL _).type_ _ name le_rfl
  | error e => exact Follows.done (Outline.length_text _).symm

theorem follows_memberRef {rid : Nat} (hL : TokensTake m depth L) :
    Follows m L (memberRef m depth rid) (memberRefOutline m rid) := by
  refine Follows.ofExcept_bind fun row => Follows.call_bind rfl fun parent hparent =>
    Follows.done ?_
  have hclass := Outline.length_token (f := L) row.1
  simp only [String.length_append, Outline.length_append, Outline.length_text, hclass,
    hL _ parent hparent]
  omega

theorem follows_methodSpec {rid : Nat} (hL : TokensTake m depth L) :
    Follows m L (methodSpec m depth rid) (methodSpecOutline m rid) := by
  refine Follows.ofExcept_bind fun row => Follows.call_bind rfl fun base hbase =>
    Follows.ofExcept_bind fun blob => ?_
  have hmethod := Outline.length_token (f := L) row.1
  cases MethodSpecSig.parseWith blob .default with
  | ok sig =>
      refine Follows.bind (Script.Raises.calls fun c hc e he => he.2 ?_) fun args hargs =>
        Follows.done ?_
      · obtain ⟨ty, _, rfl⟩ := List.mem_map.mp hc
        rfl
      · have htypes := length_calls (fun ty _ name =>
          (length_rendered hL ty.depth).type_ ty name le_rfl) hargs
        rw [← SigType.outlines_eq] at htypes
        simp only [String.length_append, Outline.length_append, Outline.length_text, hmethod,
          hL _ base hbase, Outline.length_joined htypes]
  | error e =>
      refine Follows.done ?_
      rw [hmethod, hL _ base hbase]

theorem follows_tryToken {hops : Nat} (hdepth : depth + hops + 1 = maxDepth)
    (hL : TokensTake m (deeper depth) L) (t : Token) :
    Follows m L (tryToken m depth t) (tryOutline m hops t) := by
  have hhops : maxDepth - hops = deeper depth := by
    rw [deeper]
    omega
  unfold tryToken tryOutline
  rw [if_neg (show ¬ maxDepth ≤ depth by omega), hhops]
  rcases t.table with _ | table
  · exact Follows.done (Outline.length_text _).symm
  cases table
  case typeDef => exact Follows.ofExcept _
  case typeRef => exact Follows.forward _
  case typeSpec => exact follows_typeSpec hL
  case methodDef => exact Follows.plain fun _ h => asks_owned h
  case field => exact Follows.plain fun _ h => asks_owned h
  case memberRef => exact follows_memberRef hL
  case methodSpec => exact follows_methodSpec hL
  case moduleRef => exact Follows.plain fun _ h => asks_named h
  case assemblyRef => exact Follows.plain fun _ h => asks_named h
  all_goals exact Follows.done (Outline.length_text _).symm

/-- The characters of a name are those that the tokens on its paths have of their own. -/
theorem length_token {hops : Nat} (hhops : hops ≤ maxDepth) :
    TokensTake m (maxDepth - hops) (pathText m hops) := by
  induction hops with
  | zero =>
      intro t name h
      obtain ⟨r, hr, h⟩ := Script.run_bind_ok_iff.mp (returns_iff.mp h)
      have htry := returns_iff.mp (answers_iff.mp (Script.run_attempt_ok_iff.mp hr))
      cases htry
      cases h
      exact (Nat.add_zero _).symm
  | succ hops ih =>
      intro t name h
      have hL := ih (Nat.le_of_succ_le hhops)
      obtain ⟨r, hr, h⟩ := Script.run_bind_ok_iff.mp (returns_iff.mp h)
      have htry := returns_iff.mp (answers_iff.mp (Script.run_attempt_ok_iff.mp hr))
      have hdepth : maxDepth - (hops + 1) + hops + 1 = maxDepth := by omega
      have hdeeper : deeper (maxDepth - (hops + 1)) = maxDepth - hops := by
        rw [deeper]
        omega
      have hmatches := follows_tryToken hdepth (hdeeper ▸ hL) t r htry
      rw [pathText_succ, outline]
      -- a token that has no outline is shown by its fallback
      cases houtline : tryOutline m hops t with
      | ok o =>
          rw [houtline] at hmatches
          cases r with
          | ok text =>
              cases h
              exact hmatches
          | error f =>
              cases f with
              | error e => exact hmatches.elim
              | overflow => cases h
              | rounds => cases h
      | error _ =>
          rw [houtline] at hmatches
          cases r with
          | ok text => exact hmatches.elim
          | error f =>
              cases f with
              | error e =>
                  cases h
                  exact (Outline.length_text _).symm
              | overflow => cases h
              | rounds => cases h

end Names

end Cildec
