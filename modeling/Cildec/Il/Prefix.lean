import Cildec.Il.Decode

/-!
# Instruction prefixes (`src/il/mod.rs`)

A prefix instruction is folded into a `Prefixes` record (`applyPrefix`) and checked
against the instruction it stands before (`checkPrefixTargets`). `Records` relates such a
record to the prefix instructions it was made from, and `LegalGroup` says when prefixes
may stand together before an instruction: exactly when both functions accept them
(`Records.push`, `applyPrefix_error`, `Records.legal_iff`).
-/

namespace Cildec

/-- The context of the errors of the folded stream. -/
def prefixContext : String := "CIL prefix"

/-- Which runtime checks a `no.` prefix suppresses. -/
structure NoChecks where
  typecheck : Bool := false
  rangecheck : Bool := false
  nullcheck : Bool := false
  deriving DecidableEq, Repr

namespace NoChecks

/-- Decodes the `no.` operand byte. -/
def fromBits (bits : UInt8) : NoChecks where
  typecheck := bits &&& 0x01 != 0
  rangecheck := bits &&& 0x02 != 0
  nullcheck := bits &&& 0x04 != 0

def isEmpty (checks : NoChecks) : Bool :=
  !checks.typecheck && !checks.rangecheck && !checks.nullcheck

/-- Only the low three bits count. -/
theorem isEmpty_fromBits (bits : UInt8) : (fromBits bits).isEmpty = (bits &&& 0x07 == 0) := by
  have hall : ∀ n : Fin 256, (fromBits (UInt8.ofNat n.val)).isEmpty =
      (UInt8.ofNat n.val &&& 0x07 == 0) := by
    decide +kernel
  have hbits := hall ⟨bits.toNat, bits.toNat_lt⟩
  rwa [UInt8.ofNat_toNat] at hbits

end NoChecks

/-- The prefixes attached to one instruction. -/
structure Prefixes where
  constrained : Option Token := none
  volatile : Bool := false
  unaligned : Option UInt8 := none
  tail : Bool := false
  readonly : Bool := false
  no : NoChecks := {}
  deriving DecidableEq, Repr

namespace Prefixes

def isEmpty (prefixes : Prefixes) : Bool :=
  prefixes.constrained.isNone && !prefixes.volatile && prefixes.unaligned.isNone &&
    !prefixes.tail && !prefixes.readonly && prefixes.no.isEmpty

/-- The record holds the prefix `op`. -/
def has (prefixes : Prefixes) : OpCode → Bool
  | .constrained => prefixes.constrained.isSome
  | .volatile => prefixes.volatile
  | .unaligned => prefixes.unaligned.isSome
  | .tail => prefixes.tail
  | .readonly => prefixes.readonly
  | .no => !prefixes.no.isEmpty
  | _ => false

end Prefixes

/-- The byte an `unaligned.` or `no.` prefix carries. -/
def Instruction.prefixByte (i : Instruction) : UInt8 :=
  match i.operand with
  | .i8 value => value.toUInt8
  | _ => 0

/-- Adds a prefix instruction to the record. -/
def applyPrefix (prefixes : Prefixes) (instruction : Instruction) : Result Prefixes :=
  let malformed := Error.new .malformed instruction.offset.toNat prefixContext
  match instruction.opcode with
  | .constrained =>
      if prefixes.constrained.isSome then .error malformed
      else .ok { prefixes with constrained := instruction.operand.token }
  | .volatile =>
      if prefixes.volatile then .error malformed else .ok { prefixes with volatile := true }
  | .unaligned =>
      if prefixes.unaligned.isSome then .error malformed
      else .ok { prefixes with unaligned := some instruction.prefixByte }
  | .tail => if prefixes.tail then .error malformed else .ok { prefixes with tail := true }
  | .readonly =>
      if prefixes.readonly then .error malformed else .ok { prefixes with readonly := true }
  | .no =>
      if !prefixes.no.isEmpty then .error malformed
      else
        let no := NoChecks.fromBits instruction.prefixByte
        -- a `no.` that suppresses nothing could not be told from no prefix
        if no.isEmpty then .error malformed else .ok { prefixes with no }
  | _ => .error (Error.new .unsupported instruction.offset.toNat prefixContext)

/-- `volatile.` may precede these instructions. -/
def allowsVolatile (op : OpCode) : Bool :=
  [.ldindI1, .ldindU1, .ldindI2, .ldindU2, .ldindI4, .ldindU4, .ldindI8, .ldindI, .ldindR4,
    .ldindR8, .ldindRef, .stindRef, .stindI1, .stindI2, .stindI4, .stindI8, .stindR4, .stindR8,
    .stindI, .ldfld, .stfld, .ldsfld, .stsfld, .ldobj, .stobj, .initblk, .cpblk].contains op

/-- `unaligned.` may precede these instructions. -/
def allowsUnaligned (op : OpCode) : Bool :=
  [.ldindI1, .ldindU1, .ldindI2, .ldindU2, .ldindI4, .ldindU4, .ldindI8, .ldindI, .ldindR4,
    .ldindR8, .ldindRef, .stindRef, .stindI1, .stindI2, .stindI4, .stindI8, .stindR4, .stindR8,
    .stindI, .ldfld, .stfld, .ldobj, .stobj, .initblk, .cpblk].contains op

/-- `no.` may precede the instructions whose checks it can suppress. -/
def allowsNo (op : OpCode) : Bool :=
  [.castclass, .isinst, .unbox, .unboxAny, .ldelema, .ldelem, .ldelemI1, .ldelemU1, .ldelemI2,
    .ldelemU2, .ldelemI4, .ldelemU4, .ldelemI8, .ldelemI, .ldelemR4, .ldelemR8, .ldelemRef,
    .stelem, .stelemI, .stelemI1, .stelemI2, .stelemI4, .stelemI8, .stelemR4, .stelemR8,
    .stelemRef, .ldfld, .stfld, .callvirt, .ldvirtftn, .ldlen].contains op

/-- Checks every prefix of the record against the instruction it stands before. -/
def checkPrefixTargets (prefixes : Prefixes) (target : OpCode) (first : UInt32) : Result Unit :=
  let bad := Error.new .invalidPrefixTarget first.toNat prefixContext
  if prefixes.constrained.isSome && !([.callvirt, .call, .ldftn].contains target) then
    .error bad
  else if prefixes.tail && !([.call, .calli, .callvirt].contains target) then
    .error bad
  else if prefixes.readonly && !([.ldelema, .call, .callvirt].contains target) then
    .error bad
  else if prefixes.volatile && !allowsVolatile target then
    .error bad
  else if prefixes.unaligned.isSome && !allowsUnaligned target then
    .error bad
  else if !prefixes.no.isEmpty && !allowsNo target then
    .error bad
  else
    .ok ()

/-! ## The legality tables -/

/-- The prefix opcodes. -/
def OpCode.prefixes : List OpCode :=
  [.unaligned, .volatile, .tail, .constrained, .no, .readonly]

theorem OpCode.isPrefix_iff (op : OpCode) : op.isPrefix = true ↔ op ∈ OpCode.prefixes := by
  have hall : ∀ op ∈ OpCode.all, op.isPrefix = true ↔ op ∈ OpCode.prefixes := by
    decide +kernel
  exact hall op op.mem_all

/-- The prefix may stand before the instruction. -/
def Allows (pre target : OpCode) : Prop :=
  match pre with
  | .constrained => target ∈ [OpCode.callvirt, .call, .ldftn]
  | .tail => target ∈ [OpCode.call, .calli, .callvirt]
  | .readonly => target ∈ [OpCode.ldelema, .call, .callvirt]
  | .volatile => allowsVolatile target = true
  | .unaligned => allowsUnaligned target = true
  | .no => allowsNo target = true
  | _ => False

/-- The prefixes may stand together before the instruction. -/
structure LegalGroup (ps : List Instruction) (target : Instruction) : Prop where
  isPrefix : ∀ p ∈ ps, p.opcode.isPrefix = true
  not_prefix : target.opcode.isPrefix = false
  once : (ps.map fun p => p.opcode).Nodup
  mask : ∀ p ∈ ps, p.opcode = .no → p.prefixByte &&& 0x07 ≠ 0
  allowed : ∀ p ∈ ps, Allows p.opcode target.opcode

/-! ## What a record holds -/

namespace Prefixes

theorem has_of_not_mem {op : OpCode} (prefixes : Prefixes) (h : op ∉ OpCode.prefixes) :
    prefixes.has op = false := by
  unfold has
  split <;> first | rfl | simp [OpCode.prefixes] at h

theorem has_empty (op : OpCode) : ({} : Prefixes).has op = false := by
  unfold has
  split <;> rfl

/-- An empty record holds no prefix. -/
theorem isEmpty_iff (prefixes : Prefixes) :
    prefixes.isEmpty = true ↔ ∀ op, prefixes.has op = false := by
  constructor
  · intro h op
    simp only [isEmpty, Bool.and_eq_true, Bool.not_eq_true', Option.isNone_iff_eq_none] at h
    obtain ⟨⟨⟨⟨⟨hconstrained, hvolatile⟩, hunaligned⟩, htail⟩, hreadonly⟩, hno⟩ := h
    unfold has
    split <;> simp [hconstrained, hvolatile, hunaligned, htail, hreadonly, hno]
  · intro h
    have hconstrained := h .constrained
    have hvolatile := h .volatile
    have hunaligned := h .unaligned
    have htail := h .tail
    have hreadonly := h .readonly
    have hno := h .no
    simp only [has, Option.isSome_eq_false_iff, Bool.not_eq_false'] at *
    simp [isEmpty, hconstrained, hvolatile, hunaligned, htail, hreadonly, hno]

end Prefixes

/-- Two records that differ in one prefix at most are told apart by the six prefixes. -/
theorem Prefixes.has_push {prefixes prefixes' : Prefixes} {added : OpCode}
    (hadded : added ∈ OpCode.prefixes)
    (h : ∀ op ∈ OpCode.prefixes, prefixes'.has op = true ↔ prefixes.has op = true ∨ op = added)
    (op : OpCode) : prefixes'.has op = true ↔ prefixes.has op = true ∨ op = added := by
  by_cases hop : op ∈ OpCode.prefixes
  · exact h op hop
  · have hne : op ≠ added := fun heq => hop (heq ▸ hadded)
    simp [prefixes.has_of_not_mem hop, prefixes'.has_of_not_mem hop, hne]

/-- A `constrained.` carries its token: what the decoder gives. -/
def Instruction.CarriesToken (i : Instruction) : Prop :=
  i.opcode = .constrained → i.operand.token.isSome = true

section Apply

variable {prefixes prefixes' : Prefixes} {i : Instruction} {e : Error}

/-- A branch that adds a prefix unless the record holds it. -/
theorem add_once {added : Prefixes} {held : Bool} {op : OpCode} {malformed : Error}
    (hop : i.opcode = op) (hheld : prefixes.has op = held) (hmask : op ≠ .no)
    (hmem : op ∈ OpCode.prefixes)
    (hadd : ∀ p ∈ OpCode.prefixes, added.has p = true ↔ prefixes.has p = true ∨ p = op)
    (h : (if held = true then .error malformed else .ok added : Result Prefixes) = .ok prefixes') :
    prefixes.has i.opcode = false ∧ (i.opcode = .no → i.prefixByte &&& 0x07 ≠ 0) ∧
      ∀ op, prefixes'.has op = true ↔ prefixes.has op = true ∨ op = i.opcode := by
  subst hop
  split at h
  · cases h
  · rename_i hnew
    cases h
    exact ⟨hheld.trans (Bool.eq_false_iff.mpr hnew), fun hno => absurd hno hmask,
      Prefixes.has_push hmem hadd⟩

/-- A prefix is added to a record that does not hold it yet. -/
theorem applyPrefix_ok (htoken : i.CarriesToken) (h : applyPrefix prefixes i = .ok prefixes') :
    prefixes.has i.opcode = false ∧ (i.opcode = .no → i.prefixByte &&& 0x07 ≠ 0) ∧
      ∀ op, prefixes'.has op = true ↔ prefixes.has op = true ∨ op = i.opcode := by
  simp only [applyPrefix] at h
  split at h
  case h_1 hop =>
    have hsome := htoken hop
    exact add_once hop rfl (by decide) (by decide) (by simp [OpCode.prefixes, Prefixes.has, hsome]) h
  case h_2 hop =>
    exact add_once hop rfl (by decide) (by decide) (by simp [OpCode.prefixes, Prefixes.has]) h
  case h_3 hop =>
    exact add_once hop rfl (by decide) (by decide) (by simp [OpCode.prefixes, Prefixes.has]) h
  case h_4 hop =>
    exact add_once hop rfl (by decide) (by decide) (by simp [OpCode.prefixes, Prefixes.has]) h
  case h_5 hop =>
    exact add_once hop rfl (by decide) (by decide) (by simp [OpCode.prefixes, Prefixes.has]) h
  -- `no.` has a mask, which must suppress something
  case h_6 hop =>
    split at h
    · cases h
    · rename_i hnew
      split at h
      · cases h
      · rename_i hmask
        cases h
        rw [hop]
        refine ⟨by simpa [Prefixes.has] using hnew, fun _ => ?_,
          Prefixes.has_push (by decide) (by simp [OpCode.prefixes, Prefixes.has, hmask])⟩
        simpa [NoChecks.isEmpty_fromBits] using hmask
  case h_7 => cases h

/-- The record refuses only a prefix it holds already, or a `no.` that suppresses nothing. -/
theorem applyPrefix_error (hi : i.opcode.isPrefix = true)
    (h : applyPrefix prefixes i = .error e) :
    prefixes.has i.opcode = true ∨ (i.opcode = .no ∧ i.prefixByte &&& 0x07 = 0) := by
  simp only [applyPrefix] at h
  split at h
  case h_6 hop =>
    rw [hop]
    split at h
    · rename_i hheld
      exact .inl (by simpa [Prefixes.has] using hheld)
    · split at h
      · rename_i hmask
        exact .inr ⟨rfl, by simpa [NoChecks.isEmpty_fromBits] using hmask⟩
      · cases h
  case h_7 h1 h2 h3 h4 h5 h6 =>
    have hmem := (OpCode.isPrefix_iff _).mp hi
    simp only [OpCode.prefixes, List.mem_cons, List.not_mem_nil, or_false] at hmem
    rcases hmem with hop | hop | hop | hop | hop | hop
    exacts [(h3 hop).elim, (h2 hop).elim, (h4 hop).elim, (h1 hop).elim, (h6 hop).elim,
      (h5 hop).elim]
  all_goals
    rename_i hop
    rw [hop]
    split at h
    · rename_i hheld
      exact .inl (by simpa [Prefixes.has] using hheld)
    · cases h

end Apply

/-! ## Records of prefix instructions -/

/-- The prefix instructions applied one after another. -/
def foldPrefixes (ps : List Instruction) : Result Prefixes := ps.foldlM applyPrefix {}

/-- What the prefixes of a group must satisfy before its instruction is known. -/
structure Compatible (ps : List Instruction) : Prop where
  isPrefix : ∀ p ∈ ps, p.opcode.isPrefix = true
  once : (ps.map fun p => p.opcode).Nodup
  mask : ∀ p ∈ ps, p.opcode = .no → p.prefixByte &&& 0x07 ≠ 0

/-- The record of the prefix instructions `ps`. -/
structure Records (ps : List Instruction) (prefixes : Prefixes) : Prop where
  compatible : Compatible ps
  fold : foldPrefixes ps = .ok prefixes
  has : ∀ op, prefixes.has op = true ↔ ∃ p ∈ ps, p.opcode = op

namespace Records

variable {ps : List Instruction} {prefixes prefixes' : Prefixes} {i : Instruction}

theorem nil : Records [] {} where
  compatible := ⟨fun _ hp => absurd hp List.not_mem_nil, List.nodup_nil,
    fun _ hp => absurd hp List.not_mem_nil⟩
  fold := rfl
  has op := by simp [Prefixes.has_empty]

/-- One more prefix instruction. -/
theorem push (h : Records ps prefixes) (hi : i.opcode.isPrefix = true) (htoken : i.CarriesToken)
    (happly : applyPrefix prefixes i = .ok prefixes') : Records (ps ++ [i]) prefixes' := by
  obtain ⟨hnew, hmask, hhas⟩ := applyPrefix_ok htoken happly
  -- the record held no prefix of this opcode
  have hfresh : ∀ p ∈ ps, p.opcode ≠ i.opcode := by
    intro p hp heq
    have hheld := (h.has i.opcode).mpr ⟨p, hp, heq⟩
    rw [hnew] at hheld
    cases hheld
  refine ⟨⟨?_, ?_, ?_⟩, ?_, ?_⟩
  · intro p hp
    rcases List.mem_append.mp hp with hp | hp
    · exact h.compatible.isPrefix p hp
    · rw [List.mem_singleton.mp hp]
      exact hi
  · rw [List.map_append, List.map_singleton]
    refine List.nodup_append.mpr ⟨h.compatible.once, by simp, ?_⟩
    intro a ha b hb
    obtain ⟨p, hp, rfl⟩ := List.mem_map.mp ha
    rw [List.mem_singleton.mp hb]
    exact hfresh p hp
  · intro p hp
    rcases List.mem_append.mp hp with hp | hp
    · exact h.compatible.mask p hp
    · rw [List.mem_singleton.mp hp]
      exact hmask
  · have hfold := h.fold
    unfold foldPrefixes at hfold ⊢
    rw [List.foldlM_append, hfold]
    show [i].foldlM applyPrefix prefixes = _
    rw [List.foldlM_cons, happly]
    rfl
  · intro op
    rw [hhas, h.has]
    simp [or_and_right, exists_or, eq_comm]

/-- A prefix that cannot be added is not compatible with those before it. -/
theorem not_compatible {e : Error} (h : Records ps prefixes) (hi : i.opcode.isPrefix = true)
    (happly : applyPrefix prefixes i = .error e) : ¬ Compatible (ps ++ [i]) := by
  intro hcompatible
  rcases applyPrefix_error hi happly with hheld | ⟨hop, hmask⟩
  · obtain ⟨p, hp, hop⟩ := (h.has _).mp hheld
    have honce := hcompatible.once
    rw [List.map_append, List.map_singleton] at honce
    exact (List.nodup_append.mp honce).2.2 p.opcode (List.mem_map_of_mem hp) i.opcode
      List.mem_cons_self hop
  · exact hcompatible.mask i (List.mem_append_right _ List.mem_cons_self) hop hmask

end Records

/-- One check of the chain. -/
theorem guard_ok_iff {held allowed : Bool} {bad : Error} {rest : Result Unit} :
    (if (held && !allowed) = true then .error bad else rest) = .ok () ↔
      (held = true → allowed = true) ∧ rest = .ok () := by
  cases held <;> cases allowed <;> simp

/-- The check passes exactly when every prefix of the record may stand there. -/
theorem checkPrefixTargets_iff (prefixes : Prefixes) (target : OpCode) (first : UInt32) :
    checkPrefixTargets prefixes target first = .ok () ↔
      ∀ op, prefixes.has op = true → Allows op target := by
  have hsix : (∀ op, prefixes.has op = true → Allows op target) ↔
      ∀ op ∈ OpCode.prefixes, prefixes.has op = true → Allows op target := by
    refine ⟨fun h op _ => h op, fun h op hop => h op ?_ hop⟩
    by_contra hmem
    rw [prefixes.has_of_not_mem hmem] at hop
    cases hop
  rw [hsix]
  simp only [checkPrefixTargets, guard_ok_iff, List.contains_iff_mem]
  constructor
  · rintro ⟨hconstrained, htail, hreadonly, hvolatile, hunaligned, hno, _⟩
    simp only [OpCode.prefixes, List.forall_mem_cons]
    exact ⟨hunaligned, hvolatile, htail, hconstrained, hno, hreadonly,
      fun _ hp => absurd hp List.not_mem_nil⟩
  · intro h
    exact ⟨h .constrained (by decide), h .tail (by decide), h .readonly (by decide),
      h .volatile (by decide), h .unaligned (by decide), h .no (by decide), trivial⟩

/-- The prefixes of a record may stand before the instruction exactly when the code lets
them: there are none, or the check passes. -/
theorem Records.legal_iff {ps : List Instruction} {prefixes : Prefixes} {target : Instruction}
    (h : Records ps prefixes) (htarget : target.opcode.isPrefix = false) (first : UInt32) :
    LegalGroup ps target ↔ checkPrefixTargets prefixes target.opcode first = .ok () := by
  rw [checkPrefixTargets_iff]
  constructor
  · intro hlegal op hop
    obtain ⟨p, hp, rfl⟩ := (h.has op).mp hop
    exact hlegal.allowed p hp
  · intro hallows
    exact ⟨h.compatible.isPrefix, htarget, h.compatible.once, h.compatible.mask,
      fun p hp => hallows _ ((h.has _).mpr ⟨p, hp, rfl⟩)⟩

end Cildec
