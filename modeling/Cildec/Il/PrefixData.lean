import Cildec.Il.Folded

/-!
# The bytes of prefixes

`unaligned.` and `no.` carry a byte. The record keeps the alignment as it is and the three
defined bits of the mask; neither is checked. `RecordsBytes` says what a record holds of the
bytes of its prefixes, and `prefixData_iff` when that is what the standard defines.
-/

namespace Cildec

open Wire

/-! ## What a record holds of the bytes -/

/-- The checks that the mask of a `no.` names. -/
def namedChecks (mask : UInt8) : NoChecks where
  typecheck := mask &&& 0x01 != 0
  rangecheck := mask &&& 0x02 != 0
  nullcheck := mask &&& 0x04 != 0

/-- The record holds the alignment of the `unaligned.` and the checks of the `no.` among `ps`. -/
structure RecordsBytes (ps : List Instruction) (prefixes : Prefixes) : Prop where
  unaligned : ∀ alignment, prefixes.unaligned = some alignment ↔
    ∃ p ∈ ps, p.opcode = .unaligned ∧ p.prefixByte = alignment
  no : ∀ p ∈ ps, p.opcode = .no → prefixes.no = namedChecks p.prefixByte

theorem RecordsBytes.nil : RecordsBytes [] {} where
  unaligned alignment := by simp
  no p hp := absurd hp List.not_mem_nil

/-- One prefix sets what it carries and keeps the rest. -/
theorem applyPrefix_bytes {prefixes prefixes' : Prefixes} {i : Instruction}
    (h : applyPrefix prefixes i = .ok prefixes') :
    (prefixes'.unaligned =
      if i.opcode = .unaligned then some i.prefixByte else prefixes.unaligned) ∧
    prefixes'.no = if i.opcode = .no then namedChecks i.prefixByte else prefixes.no := by
  simp only [applyPrefix] at h
  split at h
  case h_6 hop =>
    split at h
    · cases h
    · split at h
      · cases h
      · cases h
        rw [hop]
        exact ⟨rfl, rfl⟩
  case h_7 => cases h
  all_goals
    rename_i hop
    split at h
    · cases h
    · cases h
      rw [hop]
      exact ⟨rfl, rfl⟩

namespace Records

variable {ps qs : List Instruction} {prefixes prefixes' : Prefixes} {i : Instruction}

/-- One more prefix instruction. -/
theorem pushBytes (hrec : Records ps prefixes) (hbytes : RecordsBytes ps prefixes)
    (htoken : i.CarriesToken) (happly : applyPrefix prefixes i = .ok prefixes') :
    RecordsBytes (ps ++ [i]) prefixes' := by
  obtain ⟨hnew, _, _⟩ := applyPrefix_ok htoken happly
  obtain ⟨hunaligned, hno⟩ := applyPrefix_bytes happly
  -- the record held no prefix of this opcode
  have hfresh : ∀ p ∈ ps, p.opcode ≠ i.opcode := by
    intro p hp heq
    have hheld := (hrec.has i.opcode).mpr ⟨p, hp, heq⟩
    rw [hnew] at hheld
    cases hheld
  constructor
  · intro alignment
    rw [hunaligned]
    by_cases hop : i.opcode = .unaligned
    · rw [if_pos hop]
      constructor
      · intro h
        exact ⟨i, by simp, hop, Option.some.inj h⟩
      · rintro ⟨p, hp, hpop, rfl⟩
        rcases List.mem_append.mp hp with hp | hp
        · exact absurd (hpop.trans hop.symm) (hfresh p hp)
        · rw [List.mem_singleton.mp hp]
    · rw [if_neg hop, hbytes.unaligned]
      constructor
      · rintro ⟨p, hp, hdata⟩
        exact ⟨p, List.mem_append_left _ hp, hdata⟩
      · rintro ⟨p, hp, hpop, hbyte⟩
        rcases List.mem_append.mp hp with hp | hp
        · exact ⟨p, hp, hpop, hbyte⟩
        · rw [List.mem_singleton.mp hp] at hpop
          exact absurd hpop hop
  · intro p hp hpop
    rw [hno]
    rcases List.mem_append.mp hp with hp | hp
    · have hne : i.opcode ≠ .no := fun hop => hfresh p hp (hpop.trans hop.symm)
      rw [if_neg hne]
      exact hbytes.no p hp hpop
    · rw [List.mem_singleton.mp hp] at hpop ⊢
      rw [if_pos hpop]

/-- The prefixes of a fold, one after another. -/
theorem foldl (hrec : Records qs prefixes) (hbytes : RecordsBytes qs prefixes)
    (hmodifiers : ∀ p ∈ ps, p.opcode.isPrefix = true) (htokens : ∀ p ∈ ps, p.CarriesToken)
    (h : ps.foldlM applyPrefix prefixes = .ok prefixes') :
    Records (qs ++ ps) prefixes' ∧ RecordsBytes (qs ++ ps) prefixes' := by
  induction ps generalizing qs prefixes with
  | nil =>
      cases h
      rw [List.append_nil]
      exact ⟨hrec, hbytes⟩
  | cons p ps ih =>
      obtain ⟨hp, hps⟩ := List.forall_mem_cons.mp hmodifiers
      obtain ⟨htoken, htokens⟩ := List.forall_mem_cons.mp htokens
      rw [List.foldlM_cons] at h
      obtain ⟨mid, happly, h⟩ := ok_bind_iff.mp h
      rw [List.append_cons]
      exact ih (hrec.push hp htoken happly) (hrec.pushBytes hbytes htoken happly) hps htokens h

end Records

/-! ## Legal data -/

/-- An alignment that `unaligned.` can declare. -/
def IsAlignment (alignment : UInt8) : Prop := alignment = 1 ∨ alignment = 2 ∨ alignment = 4

/-- What an item records of its prefixes `ps` is what the standard defines: the alignments are
1, 2 and 4, a `no.` suppresses exactly the checks of its mask, which has no other bit, and
every prefix may stand before the instruction. -/
structure LegalData (ps : List Instruction) (f : FoldedInstruction) : Prop where
  unaligned : ∀ alignment, f.prefixes.unaligned = some alignment → IsAlignment alignment
  no : ∀ p ∈ ps, p.opcode = .no →
    f.prefixes.no = namedChecks p.prefixByte ∧ p.prefixByte &&& 0xF8 = 0
  allowed : ∀ op, f.prefixes.has op = true → Allows op f.instruction.opcode

/-- The bytes of the prefixes are ones that the standard defines. -/
def LegalBytes (ps : List Instruction) : Prop :=
  ∀ p ∈ ps, (p.opcode = .unaligned → IsAlignment p.prefixByte) ∧
    (p.opcode = .no → p.prefixByte &&& 0xF8 = 0)

/-- An item has legal data exactly when its prefixes have legal bytes. -/
theorem Folds.legalData_iff {ps : List Instruction} {i : Instruction} {f : FoldedInstruction}
    (h : Folds ps i f) (htokens : ∀ p ∈ ps, p.CarriesToken) :
    LegalData ps f ↔ LegalBytes ps := by
  obtain ⟨hrec, hbytes⟩ := Records.foldl .nil .nil h.legal.isPrefix htokens h.prefixes
  rw [List.nil_append] at hrec hbytes
  constructor
  · intro hdata p hp
    refine ⟨fun hop => hdata.unaligned _ ?_, fun hop => (hdata.no p hp hop).2⟩
    exact (hbytes.unaligned _).mpr ⟨p, hp, hop, rfl⟩
  · intro hlegal
    refine ⟨?_, fun p hp hop => ⟨hbytes.no p hp hop, (hlegal p hp).2 hop⟩, ?_⟩
    · intro alignment hrecorded
      obtain ⟨p, hp, hop, rfl⟩ := (hbytes.unaligned _).mp hrecorded
      exact (hlegal p hp).1 hop
    · intro op hop
      obtain ⟨p, hp, rfl⟩ := (hrec.has op).mp hop
      rw [h.instruction]
      exact h.legal.allowed p hp

namespace FoldedIter

/-- The folded run over any code cuts the raw one into groups, one for each item, and an item
has legal prefix data exactly when the prefix bytes of its group are legal. -/
theorem prefixData_iff (code : List UInt8) : ∃ raw rawLast items last,
    Yields InstructionIter.next (InstructionIter.new code) raw rawLast ∧
    Yields next (new code) items last ∧
    ∃ groups rest, oks raw = flattenGroups groups ++ rest ∧
      List.Forall₂ (fun g f => f.instruction = g.2 ∧ foldPrefixes g.1 = .ok f.prefixes ∧
        (LegalData g.1 f ↔ LegalBytes g.1)) groups (oks items) := by
  obtain ⟨raw, rawLast, hraw⟩ := exists_yields InstructionIter.left
    (fun _ _ _ => InstructionIter.left_next) (InstructionIter.new code)
  have htokens := carriesToken_of_yields hraw
  obtain ⟨items, last, hitems, groups, rest, hcuts⟩ := exists_cutsInto hraw htokens
  refine ⟨raw, rawLast, items, last, hraw, hitems, groups, rest, hcuts.cut, ?_⟩
  have hmem : ∀ g ∈ groups, ∀ p ∈ g.1, p.CarriesToken := by
    intro g hg p hp
    have hflat : p ∈ flattenGroups groups :=
      List.mem_flatMap.mpr ⟨g, hg, List.mem_append_left _ hp⟩
    have hoks : p ∈ oks raw := by
      rw [hcuts.cut]
      exact List.mem_append_left _ hflat
    exact htokens p (mem_oks_iff.mp hoks)
  have hfolds := hcuts.folds
  generalize oks items = fs at hfolds
  clear hcuts
  induction hfolds with
  | nil => exact .nil
  | @cons g f groups fs hf _ ih =>
      obtain ⟨hg, hgroups⟩ := List.forall_mem_cons.mp hmem
      exact .cons ⟨hf.instruction, hf.prefixes, hf.legalData_iff hg⟩ (ih hgroups)

/-- `unaligned. 3; ldind.i4`. -/
def misaligned : List UInt8 := [0xFE, 0x12, 0x03, 0x4A]

theorem misaligned_run : Yields next (new misaligned)
    [.ok ⟨⟨3, 1, .ldindI4, .none⟩, { unaligned := some 3 }, 0⟩] ⟨⟨misaligned, 4, false⟩⟩ := by
  have hfirst : InstructionIter.next (InstructionIter.new misaligned) =
      (some (.ok ⟨0, 3, .unaligned, .i8 3⟩), ⟨misaligned, 3, false⟩) := rfl
  have htarget : InstructionIter.next ⟨misaligned, 3, false⟩ =
      (some (.ok ⟨3, 1, .ldindI4, .none⟩), ⟨misaligned, 4, false⟩) := rfl
  refine .item (next_eq ?_) (.done (next_of_stays rfl))
  rw [ group_prefix hfirst rfl]
  exact group_target htarget rfl

/-- An alignment of 3 is recorded. -/
theorem misaligned_recorded : ¬ ∀ (code : List UInt8) items last,
    Yields next (new code) items last → ∀ f, .ok f ∈ items →
      ∀ alignment, f.prefixes.unaligned = some alignment → IsAlignment alignment := by
  intro hclaim
  have h := hclaim misaligned _ _ misaligned_run _ List.mem_cons_self 3 rfl
  simp [IsAlignment] at h

end FoldedIter

end Cildec
