import Cildec.Il.Iter
import Cildec.Il.Prefix
import Cildec.Lib.Groups

/-!
# The folded instruction stream (`src/il/mod.rs`)

`FoldedIter` attaches prefixes to the instruction they modify. What one call does with
the raw run before it is `Grouping`; a whole folded run cuts the raw instructions into
legal groups, one for each item, until an error ends both (`FoldedIter.run_folds`).
-/

namespace Cildec

open Wire

/-- An instruction with its prefixes folded in. -/
structure FoldedInstruction where
  instruction : Instruction
  prefixes : Prefixes
  firstOffset : UInt32
  deriving DecidableEq, Repr

namespace FoldedInstruction

/-- The IL offset just past the instruction. -/
def endOffset (f : FoldedInstruction) : UInt32 := f.instruction.nextOffset

/-- The total byte span of the prefixes and the instruction. -/
def totalSize (f : FoldedInstruction) : UInt32 := f.endOffset - f.firstOffset

/-- The raw prefix instructions of an item: those between where it starts and its
instruction. -/
def rawPrefixes (f : FoldedInstruction) (raw : List Instruction) : List Instruction :=
  raw.filter fun i =>
    decide (f.firstOffset.toNat ≤ i.offset.toNat ∧ i.offset.toNat < f.instruction.offset.toNat)

/-- The raw instructions an item stands for. -/
def unfolded (f : FoldedInstruction) (raw : List Instruction) : List Instruction :=
  f.rawPrefixes raw ++ [f.instruction]

end FoldedInstruction

/-- Each item starts where the one before it ended, the first at `start`. -/
def Chained : UInt32 → List FoldedInstruction → Prop
  | _, [] => True
  | start, f :: fs => f.firstOffset = start ∧ Chained f.endOffset fs

/-- The instruction stream with prefixes folded onto their targets. -/
structure FoldedIter where
  inner : InstructionIter
  deriving DecidableEq, Repr

namespace FoldedIter

/-- Decodes `code` from offset 0. -/
def new (code : List UInt8) : FoldedIter := ⟨InstructionIter.new code⟩

/-- Yields an error and ends the stream. -/
def fail (e : Error) (it : InstructionIter) : Option (Result FoldedInstruction) × InstructionIter :=
  (some (.error e), { it with done := true })

/-- The loop of `next`: collects prefixes until an instruction follows. -/
def group (prefixes : Prefixes) (firstOffset : Option UInt32) (it : InstructionIter) :
    Option (Result FoldedInstruction) × InstructionIter :=
  match _h : it.next with
  | (none, it') =>
      match firstOffset with
      -- the code ended on a prefix, which modifies nothing
      | some first => fail (Error.new .invalidPrefixTarget first.toNat prefixContext) it'
      | none => (none, it')
  | (some (.error e), it') => (some (.error e), it')
  | (some (.ok instruction), it') =>
      let first := firstOffset.getD instruction.offset
      if instruction.opcode.isPrefix then
        match applyPrefix prefixes instruction with
        | .error e => fail e it'
        | .ok prefixes' => group prefixes' (some first) it'
      else
        let checked :=
          if prefixes.isEmpty then .ok ()
          else checkPrefixTargets prefixes instruction.opcode first
        match checked with
        | .error e => fail e it'
        | .ok () => (some (.ok { instruction, prefixes, firstOffset := first }), it')
termination_by it.left
decreasing_by exact InstructionIter.left_next _h

def next (it : FoldedIter) : Option (Result FoldedInstruction) × FoldedIter :=
  let (item, inner) := group {} none it.inner
  (item, ⟨inner⟩)

/-! ## One call -/

section Group

variable {prefixes prefixes' : Prefixes} {firstOffset : Option UInt32}
  {it it' : InstructionIter} {i : Instruction} {e : Error}

theorem group_end (h : it.next = (none, it')) :
    group prefixes none it = (none, it') := by
  rw [group]
  split <;> simp_all

theorem group_dangling {first : UInt32} (h : it.next = (none, it')) :
    group prefixes (some first) it =
      fail (Error.new .invalidPrefixTarget first.toNat prefixContext) it' := by
  rw [group]
  split <;> simp_all

theorem group_error (h : it.next = (some (.error e), it')) :
    group prefixes firstOffset it = (some (.error e), it') := by
  rw [group]
  split <;> simp_all

theorem group_prefix (h : it.next = (some (.ok i), it')) (hi : i.opcode.isPrefix = true) :
    group prefixes firstOffset it =
      match applyPrefix prefixes i with
      | .error e => fail e it'
      | .ok prefixes' => group prefixes' (some (firstOffset.getD i.offset)) it' := by
  rw [group]
  split <;> simp_all

theorem group_target (h : it.next = (some (.ok i), it')) (hi : i.opcode.isPrefix = false) :
    group prefixes firstOffset it =
      match (if prefixes.isEmpty then .ok ()
        else checkPrefixTargets prefixes i.opcode (firstOffset.getD i.offset) : Result Unit) with
      | .error e => fail e it'
      | .ok () => (some (.ok ⟨i, prefixes, firstOffset.getD i.offset⟩), it') := by
  rw [group]
  split <;> simp_all

end Group

end FoldedIter

/-! ## What a call finds in the raw run -/

/-- `f` is the fold of the prefix instructions `ps` onto `i`. -/
structure Folds (ps : List Instruction) (i : Instruction) (f : FoldedInstruction) : Prop where
  instruction : f.instruction = i
  first : (ps ++ [i]).head?.map (fun p => p.offset) = some f.firstOffset
  prefixes : foldPrefixes ps = .ok f.prefixes
  legal : LegalGroup ps i

/-- What the loop returns before the raw items `raw`, with the prefixes `pending` already
collected: the next group, the end, or an error because the instructions cannot be
grouped. -/
inductive Grouping (pending : List Instruction) (raw : List (Result Instruction))
    (last : InstructionIter) : Option (Result FoldedInstruction) × InstructionIter → Prop where
  | ended (hraw : raw = []) (hpending : pending = []) : Grouping pending raw last (none, last)
  | item (ps : List Instruction) {i : Instruction} {rest : List (Result Instruction)}
      {it' : InstructionIter} {f : FoldedInstruction}
      (hraw : raw = ps.map .ok ++ .ok i :: rest) (hrest : Yields InstructionIter.next it' rest last)
      (hfolds : Folds (pending ++ ps) i f) : Grouping pending raw last (some (.ok f), it')
  | failed {e : Error} {it' : InstructionIter} (hstays : it'.next = (none, it'))
      (hraw : ¬ (AllOk raw ∧ Grouped LegalGroup (pending ++ oks raw))) :
      Grouping pending raw last (some (.error e), it')

theorem LegalGroup.not_target (ps : List Instruction) (t : Instruction) (h : LegalGroup ps t) :
    ¬ t.opcode.isPrefix = true := by
  rw [h.not_prefix]
  exact Bool.false_ne_true

/-- Prefixes at the front of legal groups are compatible. -/
theorem compatible_of_grouped {ps is : List Instruction} (hne : ps ≠ [])
    (hps : ∀ p ∈ ps, p.opcode.isPrefix = true) (h : Grouped LegalGroup (ps ++ is)) :
    Compatible ps := by
  obtain ⟨rs, t, ys, hlegal, _, _⟩ :=
    h.cut (M := fun i => i.opcode.isPrefix = true) LegalGroup.not_target hps (by simp [hne])
  have honce := hlegal.once
  rw [List.map_append] at honce
  exact ⟨hps, (List.nodup_append.mp honce).1,
    fun p hp => hlegal.mask p (List.mem_append_left _ hp)⟩

section Group

variable {prefixes : Prefixes} {firstOffset : Option UInt32} {pending : List Instruction}
  {it last : InstructionIter} {raw : List (Result Instruction)} {i : Instruction}

theorem head_offset (hfirst : firstOffset = pending.head?.map fun p => p.offset) :
    (pending ++ [i]).head?.map (fun p => p.offset) = some (firstOffset.getD i.offset) := by
  subst hfirst
  cases pending with
  | nil => rfl
  | cons p ps => rfl

theorem next_of_fail (it : InstructionIter) :
    InstructionIter.next { it with done := true } = (none, { it with done := true }) :=
  InstructionIter.next_of_end (.inl rfl)

/-- The target of the prefixes collected so far. -/
theorem grouping_target {rest : List (Result Instruction)} {it' : InstructionIter}
    (hrec : Records pending prefixes) (hi : i.opcode.isPrefix = false)
    (hrest : Yields InstructionIter.next it' rest last)
    (hfirst : firstOffset = pending.head?.map fun p => p.offset)
    (hnext : it.next = (some (.ok i), it')) :
    Grouping pending (.ok i :: rest) last (FoldedIter.group prefixes firstOffset it) := by
  rw [FoldedIter.group_target hnext hi]
  generalize hchecked : (if prefixes.isEmpty then .ok ()
    else checkPrefixTargets prefixes i.opcode (firstOffset.getD i.offset) : Result Unit) = checked
  -- without prefixes there is nothing to check the instruction for
  have hlegal : LegalGroup pending i ↔ checked = .ok () := by
    rw [← hchecked, hrec.legal_iff hi (firstOffset.getD i.offset)]
    split
    · rename_i hempty
      have hnone := (Prefixes.isEmpty_iff _).mp hempty
      rw [checkPrefixTargets_iff]
      simp [hnone]
    · rfl
  cases checked with
  | ok _ =>
      have hfolds : Folds (pending ++ []) i ⟨i, prefixes, firstOffset.getD i.offset⟩ := by
        rw [List.append_nil]
        exact ⟨rfl, head_offset hfirst, hrec.fold, hlegal.mpr rfl⟩
      exact .item [] rfl hrest hfolds
  | error e =>
      refine .failed (next_of_fail it') ?_
      rintro ⟨_, hgrouped⟩
      rw [oks_ok] at hgrouped
      have hgroup := hgrouped.target (M := fun i => i.opcode.isPrefix = true)
        LegalGroup.not_target (fun _ _ h => h.isPrefix) hrec.compatible.isPrefix
        (by simp [hi])
      cases hlegal.mp hgroup.1

/-- A collected prefix, seen from before it was collected. -/
theorem Grouping.prepend {r : Option (Result FoldedInstruction) × InstructionIter}
    (h : Grouping (pending ++ [i]) raw last r) : Grouping pending (.ok i :: raw) last r := by
  cases h with
  | ended _ hpending => simp at hpending
  | @item ps target rest it' f hraw hrest hfolds =>
      rw [List.append_assoc] at hfolds
      refine .item (i :: ps) ?_ hrest hfolds
      rw [hraw, List.map_cons, List.cons_append]
  | failed hstays hraw =>
      refine .failed hstays ?_
      rw [oks_ok, List.append_cons, allOk_ok]
      exact hraw

/-- What the loop does before a raw run: by induction on the run, one case for what the
raw iterator returns. -/
theorem group_spec (h : Yields InstructionIter.next it raw last)
    (htokens : ∀ i, .ok i ∈ raw → i.CarriesToken) (hrec : Records pending prefixes)
    (hfirst : firstOffset = pending.head?.map fun p => p.offset) :
    Grouping pending raw last (FoldedIter.group prefixes firstOffset it) := by
  induction h generalizing pending prefixes firstOffset with
  | done hnext =>
      cases pending with
      | nil =>
          subst hfirst
          rw [List.head?_nil, Option.map_none, FoldedIter.group_end hnext]
          exact .ended rfl rfl
      | cons p ps =>
          subst hfirst
          rw [List.head?_cons, Option.map_some, FoldedIter.group_dangling hnext]
          refine .failed (next_of_fail _) ?_
          rintro ⟨_, hgrouped⟩
          rw [oks_nil, List.append_nil] at hgrouped
          have hnil := hgrouped.eq_nil_of_modifiers (M := fun i => i.opcode.isPrefix = true)
            LegalGroup.not_target hrec.compatible.isPrefix
          cases hnil
  | @item s t u item rest hnext tail ih =>
      cases item with
      | error e =>
          rw [FoldedIter.group_error hnext]
          refine .failed (InstructionIter.next_of_end (.inl ?_)) fun h => not_allOk_error e _ h.1
          exact InstructionIter.done_of_error hnext
      | ok i =>
          have htail : ∀ i, .ok i ∈ rest → i.CarriesToken := fun i hi =>
            htokens i (List.mem_cons_of_mem _ hi)
          cases hi : i.opcode.isPrefix with
          | false => exact grouping_target hrec hi tail hfirst hnext
          | true =>
              rw [FoldedIter.group_prefix hnext hi]
              -- a prefix that is refused goes with those before it in no grouping
              cases happly : applyPrefix prefixes i with
              | error e =>
                  refine .failed (next_of_fail t) ?_
                  rintro ⟨_, hgrouped⟩
                  rw [oks_ok, List.append_cons] at hgrouped
                  refine hrec.not_compatible hi happly
                    (compatible_of_grouped (by simp) ?_ hgrouped)
                  simpa [or_imp, forall_and, hi] using hrec.compatible.isPrefix
              | ok prefixes' =>
                  have hpush := hrec.push hi (htokens i List.mem_cons_self) happly
                  exact (ih htail hpush (head_offset hfirst).symm).prepend

end Group

/-! ## Whole runs -/

/-- A folded run cuts the raw instructions into groups, one for each item, and leaves
`rest` when an error ends it. -/
structure CutsInto (raw : List (Result Instruction)) (items : List (Result FoldedInstruction))
    (groups : List (List Instruction × Instruction)) (rest : List Instruction) : Prop where
  cut : oks raw = flattenGroups groups ++ rest
  folds : List.Forall₂ (fun g f => Folds g.1 g.2 f) groups (oks items)
  complete : AllOk items → AllOk raw ∧ rest = []
  errorFree : AllOk raw → Grouped LegalGroup (oks raw) → AllOk items

namespace FoldedIter

variable {it it' last : InstructionIter} {raw : List (Result Instruction)}

theorem next_eq {item : Option (Result FoldedInstruction)} (h : group {} none it = (item, it')) :
    next ⟨it⟩ = (item, ⟨it'⟩) := by
  rw [next, h]

theorem next_of_stays (h : it.next = (none, it)) : next ⟨it⟩ = (none, ⟨it⟩) :=
  next_eq (group_end h)

/-- Before every raw run there is a folded one that cuts it. -/
theorem exists_cutsInto (h : Yields InstructionIter.next it raw last)
    (htokens : ∀ i, .ok i ∈ raw → i.CarriesToken) :
    ∃ items last', Yields next ⟨it⟩ items last' ∧ ∃ groups rest, CutsInto raw items groups rest := by
  -- every group takes its target at least, so less is left
  induction hn : raw.length using Nat.strongRecOn generalizing it raw with
  | ind n ih =>
      obtain ⟨r, hr⟩ : ∃ r, group {} none it = r := ⟨_, rfl⟩
      have hspec : Grouping [] raw last (group {} none it) := group_spec h htokens .nil rfl
      rw [hr] at hspec
      cases hspec with
      | ended hraw _ =>
          subst hraw
          exact ⟨[], _, .done (next_eq hr), [], [], rfl, .nil, fun _ => ⟨allOk_nil, rfl⟩,
            fun _ _ => allOk_nil⟩
      | failed hstays hraw =>
          refine ⟨[.error _], _, .item (next_eq hr) (.done (next_of_stays hstays)), [], oks raw,
            rfl, .nil, fun hall => absurd hall (not_allOk_error _ _), ?_⟩
          intro hall hgrouped
          exact absurd ⟨hall, hgrouped⟩ hraw
      | @item ps i rest it' f hraw hrest hfolds =>
          subst hraw
          rw [List.nil_append] at hfolds
          obtain ⟨items, last', hyields, groups, left, hcuts⟩ := ih rest.length
            (by simp at hn; omega) hrest (fun i hi => htokens i (by simp [hi])) rfl
          refine ⟨.ok f :: items, last', .item (next_eq hr) hyields, (ps, i) :: groups, left,
            ?_, .cons hfolds hcuts.folds, ?_, ?_⟩
          · rw [oks_append, oks_map_ok, oks_ok, hcuts.cut, flattenGroups_cons, List.append_assoc,
              List.cons_append]
          · intro hall
            obtain ⟨hrest, hleft⟩ := hcuts.complete ((allOk_ok _ _).mp hall)
            exact ⟨by simpa using hrest, hleft⟩
          · intro hall hgrouped
            rw [oks_append, oks_map_ok, oks_ok] at hgrouped
            have htarget := hgrouped.target (M := fun i => i.opcode.isPrefix = true)
              LegalGroup.not_target (fun _ _ h => h.isPrefix) hfolds.legal.isPrefix
              (by simp [hfolds.legal.not_prefix])
            exact (allOk_ok _ _).mpr (hcuts.errorFree (by simpa using hall) htarget.2)

/-- After an error the raw iterator is done. -/
theorem done_of_group_error {prefixes : Prefixes} {firstOffset : Option UInt32} {e : Error}
    (h : group prefixes firstOffset it = (some (.error e), it')) : it'.done = true := by
  fun_induction group prefixes firstOffset it with
  | case1 =>
      cases h
      rfl
  | case2 => cases h
  | case3 =>
      rename_i hnext
      cases h
      exact InstructionIter.done_of_error hnext
  | case4 =>
      cases h
      rfl
  | case5 =>
      rename_i ih
      exact ih h
  | case6 =>
      cases h
      rfl
  | case7 => cases h

/-- After an error the iterator returns nothing any more. -/
theorem exhausted_of_error {it it' : FoldedIter} {e : Error}
    (h : it.next = (some (.error e), it')) : Exhausted next it' := by
  obtain ⟨item, inner, hgroup⟩ : ∃ item inner, group {} none it.inner = (item, inner) :=
    ⟨_, _, rfl⟩
  rw [next, hgroup] at h
  cases h
  exact exhausted_of_stays
    (next_of_stays (InstructionIter.next_of_end (.inl (done_of_group_error hgroup))))

end FoldedIter

/-! ## Items and raw instructions -/

section Unfold

variable {is rest : List Instruction} {groups : List (List Instruction × Instruction)}
  {items : List FoldedInstruction} {stop : Nat}

/-- The raw prefixes of an item are the prefixes of its group. -/
theorem rawPrefixes_eq (htiles : Tiles 0 is stop) {before ps after : List Instruction}
    {i : Instruction} {f : FoldedInstruction} (his : is = before ++ (ps ++ i :: after))
    (hfolds : Folds ps i f) : f.rawPrefixes is = ps := by
  have hsorted := htiles.pairwise
  rw [his] at hsorted
  have hfirst : (ps ++ [i]).head?.map (fun p => p.offset.toNat) = some f.firstOffset.toNat := by
    have h := congrArg (Option.map UInt32.toNat) hfolds.first
    rwa [Option.map_map] at h
  have hfilter := filter_group hsorted hfirst
  rw [FoldedInstruction.rawPrefixes, hfolds.instruction, his]
  exact hfilter

/-- Every item has the raw prefixes of its group. -/
theorem rawPrefixes_of_folds (htiles : Tiles 0 is stop) (before : List Instruction)
    (his : is = before ++ (flattenGroups groups ++ rest))
    (hfolds : List.Forall₂ (fun g f => Folds g.1 g.2 f) groups items) :
    List.Forall₂ (fun g f => Folds g.1 g.2 f ∧ f.rawPrefixes is = g.1) groups items := by
  induction hfolds generalizing before with
  | nil => exact .nil
  | @cons g f groups items hf _ ih =>
      have his' : is = before ++ (g.1 ++ g.2 :: (flattenGroups groups ++ rest)) := by
        rw [his, flattenGroups_cons g.1 g.2, List.append_assoc, List.cons_append]
      refine .cons ⟨hf, rawPrefixes_eq htiles his' hf⟩ (ih (before ++ (g.1 ++ [g.2])) ?_)
      rw [his']
      simp

/-- The items unfolded are the groups written out. -/
theorem flatMap_unfolded
    (h : List.Forall₂ (fun g f => Folds g.1 g.2 f ∧ f.rawPrefixes is = g.1) groups items) :
    items.flatMap (fun f => f.unfolded is) = flattenGroups groups := by
  induction h with
  | nil => rfl
  | @cons g f groups items hf _ ih =>
      rw [List.flatMap_cons, ih, flattenGroups_cons g.1 g.2, FoldedInstruction.unfolded, hf.2,
        hf.1.instruction, List.append_assoc, List.singleton_append]

/-- Every item is the fold of its raw prefixes onto its instruction. -/
theorem folds_item
    (h : List.Forall₂ (fun g f => Folds g.1 g.2 f ∧ f.rawPrefixes is = g.1) groups items) :
    ∀ f ∈ items, Folds (f.rawPrefixes is) f.instruction f := by
  induction h with
  | nil =>
      intro f hf
      cases hf
  | @cons g f groups items hf _ ih =>
      intro f' hf'
      rcases List.mem_cons.mp hf' with rfl | hf'
      · rw [hf.2, hf.1.instruction]
        exact hf.1
      · exact ih f' hf'

theorem legal_of_folds (h : List.Forall₂ (fun g f => Folds g.1 g.2 f) groups items) :
    ∀ g ∈ groups, LegalGroup g.1 g.2 := by
  induction h with
  | nil =>
      intro g hg
      cases hg
  | @cons g f groups items hf _ ih =>
      intro g' hg'
      rcases List.mem_cons.mp hg' with rfl | hg'
      · exact hf.legal
      · exact ih g' hg'

/-- The items follow each other without a gap. -/
theorem chained_of_folds (hstop : stop < 2 ^ 32) {start : UInt32}
    (htiles : Tiles start.toNat (flattenGroups groups ++ rest) stop)
    (hfolds : List.Forall₂ (fun g f => Folds g.1 g.2 f) groups items) : Chained start items := by
  induction hfolds generalizing start with
  | nil => trivial
  | @cons g f groups items hf _ ih =>
      rw [flattenGroups_cons g.1 g.2, List.append_cons, List.append_assoc] at htiles
      obtain ⟨mid, hgroup, htail⟩ := tiles_append.mp htiles
      have hfirst : f.firstOffset = start := by
        have hhead := hf.first
        cases hg : g.1 with
        | nil =>
            rw [hg] at hgroup hhead
            rw [← Option.some.inj hhead]
            exact UInt32.toNat_inj.mp hgroup.1
        | cons p ps =>
            rw [hg] at hgroup hhead
            rw [← Option.some.inj hhead]
            exact UInt32.toNat_inj.mp hgroup.1
      have hend : f.endOffset.toNat = mid := by
        obtain ⟨at', _, hlast⟩ := tiles_append.mp hgroup
        obtain ⟨hoffset, _, hmid⟩ := hlast
        have hmid' : at' + g.2.size.toNat = mid := hmid
        have hsum := htail.sum_sizes
        rw [FoldedInstruction.endOffset, hf.instruction, Instruction.nextOffset, UInt32.toNat_add,
          Nat.mod_eq_of_lt (by omega)]
        omega
      exact ⟨hfirst, ih (by rw [hend]; exact htail)⟩

end Unfold

/-! ## The folded run -/

/-- What the folded run over a code is to the raw one. -/
structure FoldsRun (raw : List (Result Instruction)) (items : List (Result FoldedInstruction)) :
    Prop where
  /-- Unfolded, the items are the first raw instructions, in order. -/
  unfolded : (oks items).flatMap (fun f => f.unfolded (oks raw)) <+: oks raw
  /-- Without an error they are all of them. -/
  complete : AllOk items → (oks items).flatMap (fun f => f.unfolded (oks raw)) = oks raw
  chained : Chained 0 (oks items)
  prefixes : ∀ f ∈ oks items, foldPrefixes (f.rawPrefixes (oks raw)) = .ok f.prefixes
  isPrefix : ∀ f ∈ oks items, ∀ p ∈ f.rawPrefixes (oks raw), p.opcode.isPrefix = true
  target : ∀ f ∈ oks items, f.instruction.opcode.isPrefix = false
  /-- There is no error exactly when the raw instructions make up legal groups. -/
  errorFree : AllOk items ↔ AllOk raw ∧ Grouped LegalGroup (oks raw)

/-- A decoded `constrained.` carries a token. -/
theorem carriesToken_of_decodeAt {code : List UInt8} {offset : UInt32} {i : Instruction}
    (h : decodeAt code offset = .ok i) : i.CarriesToken := by
  intro hop
  obtain ⟨_, _, _, hfits, _⟩ := decodeAt_reads h
  rw [hop] at hfits
  obtain ⟨t, hoperand⟩ := hfits
  rw [hoperand]
  rfl

theorem carriesToken_of_yields {code : List UInt8} {raw : List (Result Instruction)}
    {last : InstructionIter}
    (h : Yields InstructionIter.next (InstructionIter.new code) raw last) (i : Instruction)
    (hi : .ok i ∈ raw) : i.CarriesToken := by
  obtain ⟨_, hdecode⟩ := InstructionIter.ok_of_yields h i hi
  exact carriesToken_of_decodeAt hdecode

namespace FoldedIter

/-- What a raw run leaves for the folded one to cut. -/
theorem foldsRun_of_cutsInto {code : List UInt8} {raw : List (Result Instruction)}
    {rawLast : InstructionIter} {items : List (Result FoldedInstruction)}
    {groups : List (List Instruction × Instruction)} {rest : List Instruction}
    (hlen : code.length < 2 ^ 32)
    (hraw : Yields InstructionIter.next (InstructionIter.new code) raw rawLast)
    (h : CutsInto raw items groups rest) : FoldsRun raw items := by
  obtain ⟨is, err, hitems, htiles, hle, _⟩ := InstructionIter.tiles_of_yields hraw (.new hlen)
  have hoks : oks raw = is := by
    rw [hitems]
    cases err <;> simp
  have hcut := h.cut
  rw [hoks] at hcut
  have hstop : rawLast.offset.toNat < 2 ^ 32 := rawLast.offset.toNat_lt
  have hfolds := rawPrefixes_of_folds htiles [] hcut h.folds
  have hunfolded := flatMap_unfolded hfolds
  have hitem := folds_item hfolds
  rw [hcut] at htiles
  refine ⟨?_, ?_, chained_of_folds hstop htiles h.folds, ?_, ?_, ?_, ?_, ?_⟩
  · rw [hoks, hunfolded, hcut]
    exact List.prefix_append _ _
  · intro hall
    rw [hoks, hunfolded, hcut, (h.complete hall).2, List.append_nil]
  · intro f hf
    rw [hoks]
    exact (hitem f hf).prefixes
  · intro f hf
    rw [hoks]
    exact (hitem f hf).legal.isPrefix
  · intro f hf
    exact (hitem f hf).legal.not_prefix
  · intro hall
    obtain ⟨hallRaw, hrest⟩ := h.complete hall
    refine ⟨hallRaw, groups, ?_, legal_of_folds h.folds⟩
    rw [hoks, hcut, hrest, List.append_nil]
  · rintro ⟨hallRaw, hgrouped⟩
    exact h.errorFree hallRaw hgrouped

/-- The folded run over a code is finite, groups the prefixes of the raw run, and ends
for good with the first error. -/
theorem run_folds (code : List UInt8) (hlen : code.length < 2 ^ 32) :
    (∃ items last, Yields next (new code) items last) ∧
    (∀ raw rawLast items last,
      Yields InstructionIter.next (InstructionIter.new code) raw rawLast →
      Yields next (new code) items last → FoldsRun raw items) ∧
    (∀ (it it' : FoldedIter) (e : Error), it.next = (some (.error e), it') →
      Exhausted next it') := by
  refine ⟨?_, ?_, fun _ _ _ => exhausted_of_error⟩
  · obtain ⟨raw, rawLast, hraw⟩ := exists_yields InstructionIter.left
      (fun _ _ _ => InstructionIter.left_next) (InstructionIter.new code)
    obtain ⟨items, last, h, _⟩ := exists_cutsInto hraw (carriesToken_of_yields hraw)
    exact ⟨items, last, h⟩
  · intro raw rawLast items last hraw hitems
    obtain ⟨items', last', h, groups, rest, hcuts⟩ :=
      exists_cutsInto hraw (carriesToken_of_yields hraw)
    obtain ⟨rfl, _⟩ := hitems.unique h
    exact foldsRun_of_cutsInto hlen hraw hcuts

/-- `volatile. ldfld; ret`. -/
def volatileField : List UInt8 := [0xFE, 0x13, 0x7B, 0x01, 0x00, 0x00, 0x04, 0x2A]

theorem volatileField_raw : Yields InstructionIter.next (InstructionIter.new volatileField)
    [.ok ⟨0, 2, .volatile, .none⟩, .ok ⟨2, 5, .ldfld, .field ⟨0x04000001⟩⟩,
      .ok ⟨7, 1, .ret, .none⟩] ⟨volatileField, 8, false⟩ :=
  .item rfl (.item rfl (.item rfl (.done rfl)))

/-- Two legal groups: the folded run has no error. -/
theorem run_folds_volatileField :
    ∃ items last, Yields next (new volatileField) items last ∧ AllOk items := by
  obtain ⟨⟨items, last, hitems⟩, hfolds, _⟩ := run_folds volatileField (by decide)
  have hprefixed : LegalGroup [⟨0, 2, .volatile, .none⟩]
      ⟨2, 5, .ldfld, .field ⟨0x04000001⟩⟩ := by
    refine ⟨?_, by decide, by simp, ?_, ?_⟩ <;> simp [Allows] <;> decide
  have hbare : LegalGroup [] ⟨7, 1, .ret, .none⟩ := by
    refine ⟨?_, by decide, by simp, ?_, ?_⟩ <;> simp
  refine ⟨items, last, hitems, ?_⟩
  refine (hfolds _ _ items last volatileField_raw hitems).errorFree.mpr ⟨by simp, ?_⟩
  have hret : Grouped LegalGroup ([] ++ [⟨7, 1, .ret, .none⟩]) := .cons hbare (.nil _)
  exact .cons hprefixed hret

end FoldedIter

end Cildec
