import Cildec.Display.Names
import Cildec.Signature.Depth
import Cildec.Tables.Rounds

/-!
# Name rendering ends

A call either stays on its helper and goes down in the type it renders (`Stays`), or follows
a token to a helper one hop deeper, where the recursion limit bounds the type that is found
(`Hops`). `asks_cases` says that there are no other calls. The hops that are left, and below
them the levels of the type, are the digits of a rank that every call lowers.

* `calls_end`: every call returns, on every region;
* `chain_depth`, `chain_hops`, `chain_types`: what lies on a chain of nested calls.
-/

namespace Cildec

open Wire

namespace Names

/-- `SignatureOptions::default().recursion_limit`. -/
def recursionLimit : Nat := SignatureOptions.default.limit

/-! ## What a call can lead to -/

/-- The levels of types below a call, on the same helper. -/
def Call.levels : Call → Nat
  | .type_ _ ty => ty.depth
  | .param _ p => p.depth
  | .methodSig _ sig _ => sig.depth
  | _ => 0

/-- The call renders a type. -/
def Call.isType : Call → Bool
  | .type_ _ _ => true
  | _ => false

/-- How many calls can nest below a call, on the same helper. -/
def Call.height : Call → Nat
  | .typeRef _ _ => 0
  | .tryToken _ _ => 0
  | .token _ _ => 1
  | .mods _ _ => 2
  | .type_ _ ty => 3 * ty.depth
  | .param _ p => 3 * p.depth + 1
  | .methodSig _ sig _ => 3 * sig.depth

/-- The depths of the helpers that a call constructs. -/
def Call.helpers : Call → List Nat
  | .typeRef depth _ => if maxDepth ≤ depth then [] else [deeper depth]
  | .tryToken depth _ => if maxDepth ≤ depth then [] else [deeper depth]
  | _ => []

/-- A call on the same helper, for a part of what the first one renders. -/
structure Stays (c c' : Call) : Prop where
  depth : c'.depth = c.depth
  height : c'.height < c.height
  levels : (if c.isType then 1 else 0) + c'.levels ≤ c.levels

/-- A call on a helper of a depth, for a type that was parsed. -/
structure Lands (depth : Nat) (c : Call) : Prop where
  depth : c.depth = depth
  levels : c.levels ≤ recursionLimit
  height : c.height ≤ 3 * recursionLimit

/-- A call one hop deeper, for what a token refers to. -/
structure Hops (c c' : Call) : Prop where
  room : c.depth < maxDepth
  constructed : deeper c.depth ∈ c.helpers
  noType : c.isType = false
  lands : Lands (deeper c.depth) c'

variable {m : Metadata} {c c' : Call} {depth : Nat}

/-! ## One call -/

theorem asks_scopedName {scope : Token} {name : String}
    (h : (scopedName m depth scope name).Asks c') : Lands (deeper depth) c' := by
  unfold scopedName at h
  split at h
  · exact (Script.asks_done h).elim
  · split at h
    · rcases Script.asks_bind h with h | ⟨_, h⟩
      · exact (Script.asks_ofExcept h).elim
      · exact (Script.asks_done h).elim
    · rcases Script.asks_bind h with h | ⟨_, h⟩
      · exact (Script.asks_ofExcept h).elim
      · exact (Script.asks_done h).elim
    · rcases Script.asks_bind h with h | ⟨_, h⟩
      · rw [Script.asks_call h]
        exact ⟨rfl, Nat.zero_le _, Nat.zero_le _⟩
      · exact (Script.asks_done h).elim
    · exact (Script.asks_done h).elim

theorem asks_typeRef {rid : Nat} (h : (typeRef m depth rid).Asks c') :
    Hops (.typeRef depth rid) c' := by
  unfold typeRef at h
  split at h
  · exact (Script.asks_fail h).elim
  · rename_i hroom
    refine ⟨Nat.not_le.mp hroom, ?_, rfl, ?_⟩
    · rw [Call.helpers, if_neg hroom]
      exact List.mem_singleton_self _
    · rcases Script.asks_bind h with h | ⟨_, h⟩
      · exact (Script.asks_ofExcept h).elim
      · exact asks_scopedName h

theorem asks_token {t : Token} (h : (token depth t).Asks c') : c' = .tryToken depth t := by
  rcases Script.asks_bind h with h | ⟨r, h⟩
  · exact Script.asks_attempt h
  · split at h
    · exact (Script.asks_done h).elim
    · exact (Script.asks_done h).elim
    · exact (Script.asks_fail h).elim

theorem lands_type {ty : SigType} (h : ty.depth ≤ recursionLimit) :
    Lands depth (.type_ depth ty) :=
  ⟨rfl, h, Nat.mul_le_mul_left 3 h⟩

theorem lands_token {t : Token} : Lands depth (.token depth t) :=
  ⟨rfl, Nat.zero_le _, (by decide : 1 ≤ 3 * recursionLimit)⟩

theorem asks_typeSpec {rid : Nat} (h : (typeSpec m depth rid).Asks c') : Lands depth c' := by
  rcases Script.asks_bind h with h | ⟨row, h⟩
  · exact (Script.asks_ofExcept h).elim
  rcases Script.asks_bind h with h | ⟨blob, h⟩
  · exact (Script.asks_ofExcept h).elim
  split at h
  · rename_i sig hsig
    obtain rfl := Script.asks_call h
    exact lands_type (TypeSpecSig.parse_depth hsig)
  · exact (Script.asks_done h).elim

theorem asks_memberRef {rid : Nat} (h : (memberRef m depth rid).Asks c') : Lands depth c' := by
  rcases Script.asks_bind h with h | ⟨row, h⟩
  · exact (Script.asks_ofExcept h).elim
  rcases Script.asks_bind h with h | ⟨parent, h⟩
  · rw [Script.asks_call h]
    exact lands_token
  · exact (Script.asks_done h).elim

theorem asks_methodSpec {rid : Nat} (h : (methodSpec m depth rid).Asks c') :
    Lands depth c' := by
  rcases Script.asks_bind h with h | ⟨row, h⟩
  · exact (Script.asks_ofExcept h).elim
  rcases Script.asks_bind h with h | ⟨base, h⟩
  · rw [Script.asks_call h]
    exact lands_token
  rcases Script.asks_bind h with h | ⟨blob, h⟩
  · exact (Script.asks_ofExcept h).elim
  split at h
  · rename_i sig hsig
    rcases Script.asks_bind h with h | ⟨args, h⟩
    · obtain ⟨ty, hty, rfl⟩ := List.mem_map.mp (Script.asks_calls h)
      exact lands_type (MethodSpecSig.parse_depth hsig ty hty)
    · exact (Script.asks_done h).elim
  · exact (Script.asks_done h).elim

/-- The rows without references ask for nothing. -/
theorem asks_owned {α : Type} {x : Except Fault α} {y : α → Except Fault String}
    {f : α → String → String}
    (h : (Script.ofExcept x >>= fun a => Script.ofExcept (y a) >>= fun b => pure (f a b) :
      Body String).Asks c') : False := by
  rcases Script.asks_bind h with h | ⟨_, h⟩
  · exact Script.asks_ofExcept h
  rcases Script.asks_bind h with h | ⟨_, h⟩
  · exact Script.asks_ofExcept h
  · exact Script.asks_done h

theorem asks_named {α : Type} {x : Except Fault α} {f : α → String}
    (h : (Script.ofExcept x >>= fun a => pure (f a) : Body String).Asks c') : False := by
  rcases Script.asks_bind h with h | ⟨_, h⟩
  · exact Script.asks_ofExcept h
  · exact Script.asks_done h

theorem asks_tryToken {t : Token} (h : (tryToken m depth t).Asks c') :
    Hops (.tryToken depth t) c' := by
  unfold tryToken at h
  split at h
  · exact (Script.asks_fail h).elim
  · rename_i hroom
    refine ⟨Nat.not_le.mp hroom, ?_, rfl, ?_⟩
    · rw [Call.helpers, if_neg hroom]
      exact List.mem_singleton_self _
    split at h
    · exact (Script.asks_ofExcept h).elim
    · rw [Script.asks_call h]
      exact ⟨rfl, Nat.zero_le _, Nat.zero_le _⟩
    · exact asks_typeSpec h
    · exact (asks_owned h).elim
    · exact (asks_owned h).elim
    · exact asks_memberRef h
    · exact asks_methodSpec h
    · exact (asks_named h).elim
    · exact (asks_named h).elim
    · exact (Script.asks_done h).elim

/-! ## One call of a type -/

theorem asks_modsFrom {ms : List CustomMod} : ∀ {out : String},
    (modsFrom depth ms out).Asks c' → ∃ t, c' = .token depth t := by
  induction ms with
  | nil => intro out h; exact (Script.asks_done h).elim
  | cons mod ms ih =>
      intro out h
      rcases Script.asks_bind h with h | ⟨_, h⟩
      · exact ⟨_, Script.asks_call h⟩
      · exact ih h

theorem asks_modified {ms : List CustomMod} {inner : SigType} {suffix : String}
    (h : (modified depth ms inner suffix).Asks c') :
    c' = .type_ depth inner ∨ c' = .mods depth ms := by
  rcases Script.asks_bind h with h | ⟨_, h⟩
  · exact .inl (Script.asks_call h)
  rcases Script.asks_bind h with h | ⟨_, h⟩
  · exact .inr (Script.asks_call h)
  · exact (Script.asks_done h).elim

/-- A call whose value is only put in a text. -/
theorem asks_call_then {k : Call} {f : String → String}
    (h : (Script.call k >>= fun name => pure (f name) : Body String).Asks c') : c' = k := by
  rcases Script.asks_bind h with h | ⟨_, h⟩
  · exact Script.asks_call h
  · exact (Script.asks_done h).elim

theorem stays_inner {ty inner : SigType} (h : inner.depth + 1 ≤ ty.depth) :
    Stays (.type_ depth ty) (.type_ depth inner) := by
  refine ⟨rfl, ?_, ?_⟩
  · show 3 * inner.depth < 3 * ty.depth
    omega
  · show 1 + inner.depth ≤ ty.depth
    omega

theorem stays_type_token {ty : SigType} {t : Token} :
    Stays (.type_ depth ty) (.token depth t) := by
  have := SigType.depth_pos ty
  refine ⟨rfl, ?_, ?_⟩
  · show 1 < 3 * ty.depth
    omega
  · show 1 + 0 ≤ ty.depth
    omega

theorem stays_type_mods {ty : SigType} {ms : List CustomMod} :
    Stays (.type_ depth ty) (.mods depth ms) := by
  have := SigType.depth_pos ty
  refine ⟨rfl, ?_, ?_⟩
  · show 2 < 3 * ty.depth
    omega
  · show 1 + 0 ≤ ty.depth
    omega

theorem stays_modified {ty inner : SigType} {ms : List CustomMod} {suffix : String}
    (hdepth : inner.depth + 1 ≤ ty.depth) (h : (modified depth ms inner suffix).Asks c') :
    Stays (.type_ depth ty) c' := by
  rcases asks_modified h with rfl | rfl
  · exact stays_inner hdepth
  · exact stays_type_mods

theorem asks_type {ty : SigType} (h : (type_ depth ty).Asks c') :
    Stays (.type_ depth ty) c' := by
  unfold type_ at h
  split at h
  · exact stays_modified (Nat.le_refl _) h
  · rw [asks_call_then h]
    exact stays_inner (Nat.le_refl _)
  · rw [asks_call_then h]
    exact stays_type_token
  · rw [asks_call_then h]
    exact stays_type_token
  · exact stays_modified (Nat.le_refl _) h
  · rw [asks_call_then h]
    exact stays_inner (Nat.le_refl _)
  · rcases Script.asks_bind h with h | ⟨_, h⟩
    · obtain ⟨ty, hty, rfl⟩ := List.mem_map.mp (Script.asks_calls h)
      exact stays_inner (Nat.succ_le_succ (SigType.depthAll_le.mp (Nat.le_refl _) ty hty))
    · rw [asks_call_then h]
      exact stays_type_token
  · rename_i sig
    rw [asks_call_then h]
    refine ⟨rfl, ?_, ?_⟩
    · show 3 * sig.depth < 3 * (sig.depth + 1)
      omega
    · show 1 + sig.depth ≤ sig.depth + 1
      omega
  · exact stays_modified (Nat.le_refl _) h
  · rw [asks_call_then h]
    exact stays_inner (Nat.le_refl _)
  · exact (Script.asks_done h).elim

theorem asks_param {p : Param} (h : (param depth p).Asks c') : Stays (.param depth p) c' := by
  obtain ⟨customMods, byRef, ty⟩ := p
  rcases Script.asks_bind h with h | ⟨_, h⟩
  · rw [Script.asks_call h]
    refine ⟨rfl, Nat.lt_succ_self _, ?_⟩
    show 0 + ty.depth ≤ ty.depth
    omega
  · rw [asks_call_then h]
    have := SigType.depth_pos ty
    refine ⟨rfl, ?_, Nat.zero_le _⟩
    show 2 < 3 * ty.depth + 1
    omega

theorem stays_param {sig : MethodSig} {name : String} {p : Param}
    (h : p.depth + 1 ≤ sig.depth) : Stays (.methodSig depth sig name) (.param depth p) := by
  refine ⟨rfl, ?_, ?_⟩
  · show 3 * p.depth + 1 < 3 * sig.depth
    omega
  · show 0 + p.depth ≤ sig.depth
    omega

theorem asks_methodSig {sig : MethodSig} {name : String}
    (h : (methodSig depth sig name).Asks c') : Stays (.methodSig depth sig name) c' := by
  have hbelow : ∀ k, k ≤ max sig.returnType.depth
      (max (Param.depthAll sig.params) (Param.depthAll sig.varargParams)) →
      k + 1 ≤ sig.depth := by
    intro k hk
    cases sig
    exact Nat.succ_le_succ hk
  rcases Script.asks_bind h with h | ⟨_, h⟩
  · rw [Script.asks_call h]
    exact stays_param (hbelow _ (Nat.le_max_left _ _))
  rcases Script.asks_bind h with h | ⟨_, h⟩
  · obtain ⟨p, hp, rfl⟩ := List.mem_map.mp (Script.asks_calls h)
    have := Param.depthAll_le.mp (Nat.le_refl _) p hp
    exact stays_param (hbelow _ (by omega))
  rcases Script.asks_bind h with h | ⟨_, h⟩
  · obtain ⟨p, hp, rfl⟩ := List.mem_map.mp (Script.asks_calls h)
    have := Param.depthAll_le.mp (Nat.le_refl _) p hp
    exact stays_param (hbelow _ (by omega))
  · exact (Script.asks_done h).elim

/-- There are no other calls. -/
theorem asks_cases (h : (body m c).Asks c') : Stays c c' ∨ Hops c c' := by
  cases c with
  | typeRef depth rid => exact .inr (asks_typeRef h)
  | token depth t =>
      rw [asks_token h]
      exact .inl ⟨rfl, Nat.zero_lt_one, Nat.le_refl _⟩
  | tryToken depth t => exact .inr (asks_tryToken h)
  | type_ depth ty => exact .inl (asks_type h)
  | mods depth ms =>
      obtain ⟨t, rfl⟩ := asks_modsFrom h
      exact .inl ⟨rfl, Nat.one_lt_two, Nat.le_refl _⟩
  | param depth p => exact .inl (asks_param h)
  | methodSig depth sig name => exact .inl (asks_methodSig h)

/-! ## Termination -/

/-- The hops that are left, and below them the calls on one helper. -/
def Call.rank (c : Call) : Nat := (maxDepth - c.depth) * (3 * recursionLimit + 1) + c.height

theorem rank_lt (h : (body m c).Asks c') : c'.rank < c.rank := by
  unfold Call.rank
  rcases asks_cases h with h | h
  · rw [h.depth]
    exact Nat.add_lt_add_left h.height _
  · have hheight := h.lands.height
    have hleft : maxDepth - c.depth = maxDepth - c'.depth + 1 := by
      have := h.room
      rw [h.lands.depth, deeper]
      omega
    rw [hleft, Nat.succ_mul (maxDepth - c'.depth)]
    omega

/-- Every call returns. -/
theorem calls_end (m : Metadata) (c : Call) : ∃ x, Script.Returns (body m) c x := by
  obtain ⟨x, hx⟩ := Option.isSome_iff_exists.mp
    (Script.eval_total (fun _ _ h => rank_lt h) (Nat.lt_succ_self c.rank))
  exact ⟨x, _, hx⟩

/-! ## Chains of nested calls -/

/-- One call is made while the other runs. -/
def Nests (m : Metadata) (c c' : Call) : Prop := (body m c).Asks c'

/-- How often a chain of calls goes to another helper. -/
def hops : List Call → Nat
  | c :: c' :: cs => (if c'.depth = c.depth then 0 else 1) + hops (c' :: cs)
  | _ => 0

/-- How many types a chain of calls renders on the helper of a depth. -/
def typesAt (depth : Nat) (cs : List Call) : Nat :=
  cs.countP fun c => c.isType && c.depth == depth

/-- How many types a chain can render on the helper of a depth, from a call on. -/
def Call.typeBound (c : Call) (depth : Nat) : Nat :=
  if depth < c.depth then 0 else if depth = c.depth then c.levels else recursionLimit

theorem typesAt_cons (depth : Nat) (c : Call) (cs : List Call) :
    typesAt depth (c :: cs) =
      (if c.isType = true ∧ c.depth = depth then 1 else 0) + typesAt depth cs := by
  rw [typesAt, List.countP_cons, Nat.add_comm]
  simp only [Bool.and_eq_true, beq_iff_eq, typesAt]

/-- A call uses up what it renders itself. -/
theorem typeBound_step (h : Nests m c c') (depth : Nat) :
    (if c.isType = true ∧ c.depth = depth then 1 else 0) + c'.typeBound depth ≤
      c.typeBound depth := by
  unfold Call.typeBound
  -- on the same helper the call takes a level; on the next one the limit counts anew
  rcases asks_cases h with h | h
  · have hlevels := h.levels
    rw [h.depth]
    by_cases hlt : depth < c.depth
    · simp only [if_pos hlt, if_neg (fun h : c.isType = true ∧ c.depth = depth => by omega),
        Nat.le_refl]
    · by_cases heq : depth = c.depth
      · simp only [heq, and_true, Nat.lt_irrefl, if_true, if_false]
        exact hlevels
      · simp only [if_neg hlt, if_neg heq, if_neg (fun h : c.isType = true ∧ c.depth = depth =>
          heq h.2.symm), Nat.zero_add, Nat.le_refl]
  · have hlevels := h.lands.levels
    have hdepth : c'.depth = c.depth + 1 := h.lands.depth
    simp only [h.noType, hdepth, Bool.false_eq_true, false_and, if_false, Nat.zero_add]
    by_cases hlt : depth < c.depth + 1
    · rw [if_pos hlt]
      exact Nat.zero_le _
    · rw [if_neg hlt, if_neg (show ¬ depth < c.depth by omega),
        if_neg (show depth ≠ c.depth by omega)]
      split_ifs
      · exact hlevels
      · exact Nat.le_refl _

theorem chain_types {cs : List Call} : ∀ {c : Call}, List.IsChain (Nests m) (c :: cs) →
    ∀ depth, typesAt depth (c :: cs) ≤ c.typeBound depth := by
  induction cs with
  | nil =>
      intro c _ depth
      rw [typesAt_cons]
      by_cases h : c.isType = true ∧ c.depth = depth
      · -- a type has a level of its own
        have hlevels : 1 ≤ c.levels := by
          cases c <;> first | exact SigType.depth_pos _ | cases h.1
        rw [if_pos h, Call.typeBound, if_neg (by omega), if_pos h.2.symm]
        exact hlevels
      · rw [if_neg h]
        exact Nat.zero_le _
  | cons c' cs ih =>
      intro c hchain depth
      obtain ⟨hstep, hchain⟩ := List.isChain_cons_cons.mp hchain
      rw [typesAt_cons]
      exact Nat.le_trans (Nat.add_le_add_left (ih hchain depth) _) (typeBound_step hstep depth)

/-- The hops of a chain and the depth it starts at stay within the limit. -/
theorem chain_hops {cs : List Call} : ∀ {c : Call}, List.IsChain (Nests m) (c :: cs) →
    c.depth ≤ maxDepth → hops (c :: cs) + c.depth ≤ maxDepth := by
  induction cs with
  | nil =>
      intro c _ hle
      rw [hops, Nat.zero_add]
      · exact hle
      · intro _ _ _ h
        cases h
  | cons c' cs ih =>
      intro c hchain hle
      obtain ⟨hstep, hchain⟩ := List.isChain_cons_cons.mp hchain
      rw [hops]
      rcases asks_cases hstep with h | h
      · have := ih hchain (h.depth ▸ hle)
        rw [if_pos h.depth]
        rw [h.depth] at this
        omega
      · have hdepth : c'.depth = c.depth + 1 := h.lands.depth
        have hroom := h.room
        have := ih hchain (by omega)
        rw [if_neg (by omega)]
        omega

/-- No helper is constructed beyond the limit. -/
theorem helpers_le (c : Call) : ∀ depth ∈ c.helpers, depth ≤ maxDepth := by
  intro depth hmem
  cases c <;> simp only [Call.helpers, List.not_mem_nil] at hmem
  all_goals
    split at hmem
    · cases hmem
    · rw [List.mem_singleton.mp hmem, deeper]
      omega

/-- The calls of a chain are on helpers within the limit. -/
theorem chain_depth {cs : List Call} : ∀ {c : Call}, List.IsChain (Nests m) (c :: cs) →
    c.depth ≤ maxDepth → ∀ c' ∈ c :: cs, c'.depth ≤ maxDepth := by
  induction cs with
  | nil =>
      intro c _ hle c' hmem
      rw [List.mem_singleton.mp hmem]
      exact hle
  | cons c₁ cs ih =>
      intro c hchain hle c' hmem
      obtain ⟨hstep, hchain⟩ := List.isChain_cons_cons.mp hchain
      rcases List.mem_cons.mp hmem with rfl | hmem
      · exact hle
      · refine ih hchain ?_ c' hmem
        rcases asks_cases hstep with h | h
        · rw [h.depth]
          exact hle
        · rw [h.lands.depth]
          exact h.room

end Names

end Cildec
