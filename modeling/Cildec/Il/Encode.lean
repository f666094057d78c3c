import Cildec.Il.Decode
import Cildec.Lib.Segments

/-!
# The CIL encoding (ECMA-335 Partition III, VI.C)

`Instruction.enc` writes an instruction: the encoding bytes of its opcode and the
little-endian operand its operand kind prescribes, a branch as the distance from the
next instruction. `decodeAt_inverse` says that `decodeAt` is its exact inverse: what is
decoded is what was written there, and what is written is decoded.
-/

namespace Cildec

open Wire

/-! ## Encoding -/

/-- The bytes of an operand of a kind, when the next instruction is at `next`. -/
def encOperand (next : UInt32) : OperandKind → Operand → List UInt8
  | .shortInlineI, .i8 v => [v.toUInt8]
  | .shortInlineI, .i32 v => [v.toInt8.toUInt8]
  | .inlineI, .i32 v => leBytes 4 v.toUInt32.toNat
  | .inlineI8, .i64 v => leBytes 8 v.toUInt64.toNat
  | .shortInlineR, .r32 bits => leBytes 4 bits.toNat
  | .inlineR, .r64 bits => leBytes 8 bits.toNat
  | .shortInlineVar, .var index => [index.toUInt8]
  | .inlineVar, .var index => leBytes 2 index.toNat
  | .shortInlineBrTarget, .branchTarget target => [(target - next).toUInt8]
  | .inlineBrTarget, .branchTarget target => leBytes 4 (target - next).toNat
  | .inlineSwitch, .switch targets =>
      leBytes 4 targets.length ++ targets.flatMap fun target => leBytes 4 (target - next).toNat
  | .inlineMethod, .method t => leBytes 4 t.value.toNat
  | .inlineField, .field t => leBytes 4 t.value.toNat
  | .inlineType, .type t => leBytes 4 t.value.toNat
  | .inlineTok, .tok t => leBytes 4 t.value.toNat
  | .inlineSig, .sig t => leBytes 4 t.value.toNat
  | .inlineString, .string t => leBytes 4 t.value.toNat
  | _, _ => []

/-- The operand is of the kind and representable in it: a short form holds one byte, and
an opcode without operand bytes has the operand it implies. -/
def OperandFits (opcode : OpCode) (next : UInt32) (operand : Operand) : OperandKind → Prop
  | .inlineNone => operand = impliedOperand opcode
  | .shortInlineI =>
      if opcode = .ldcI4S then ∃ v : Int8, operand = .i32 v.toInt32
      else ∃ v : Int8, operand = .i8 v
  | .inlineI => ∃ v, operand = .i32 v
  | .inlineI8 => ∃ v, operand = .i64 v
  | .shortInlineR => ∃ bits, operand = .r32 bits
  | .inlineR => ∃ bits, operand = .r64 bits
  | .shortInlineVar => ∃ index : UInt8, operand = .var index.toUInt16
  | .inlineVar => ∃ index, operand = .var index
  | .shortInlineBrTarget => ∃ delta : Int8, operand = .branchTarget (next + delta.toInt32.toUInt32)
  | .inlineBrTarget => ∃ target, operand = .branchTarget target
  | .inlineSwitch => ∃ targets, operand = .switch targets
  | .inlineMethod => ∃ t, operand = .method t
  | .inlineField => ∃ t, operand = .field t
  | .inlineType => ∃ t, operand = .type t
  | .inlineTok => ∃ t, operand = .tok t
  | .inlineSig => ∃ t, operand = .sig t
  | .inlineString => ∃ t, operand = .string t

namespace Instruction

/-- The encoding of an instruction. -/
def enc (i : Instruction) : List UInt8 :=
  i.opcode.bytes ++ encOperand i.nextOffset i.opcode.info.operand i.operand

/-- The instruction has an encoding, and its size is the length of it. -/
structure Encodable (i : Instruction) : Prop where
  size_eq : i.size.toNat = i.enc.length
  fits : OperandFits i.opcode i.nextOffset i.operand i.opcode.info.operand

end Instruction

/-- Only the operand of `switch` is a list of targets. -/
theorem kind_of_switch_fits {opcode : OpCode} {next : UInt32} {targets : List UInt32}
    {kind : OperandKind} (h : OperandFits opcode next (.switch targets) kind) :
    kind = .inlineSwitch := by
  cases kind with
  | inlineSwitch => rfl
  | shortInlineI =>
      simp only [OperandFits] at h
      split at h <;> (obtain ⟨_, h⟩ := h; cases h)
  | inlineNone =>
      simp only [OperandFits, impliedOperand] at h
      split at h <;> cases h
  | _ =>
      obtain ⟨_, h⟩ := h
      cases h

/-! ## Widths -/

theorem toUInt8_toInt32 (d : Int8) : d.toInt32.toUInt32.toUInt8 = d.toUInt8 := by
  apply UInt8.toBitVec_inj.mp
  show (d.toBitVec.signExtend 32).setWidth 8 = d.toBitVec
  ext i hi
  rw [← BitVec.getLsbD_eq_getElem, ← BitVec.getLsbD_eq_getElem]
  simp only [BitVec.getLsbD_setWidth, BitVec.getLsbD_signExtend, hi, decide_true, Bool.true_and]
  simp
  omega

/-- The distance to a target, added to where it is measured from, is the target. -/
theorem add_sub_next (target next : UInt32) : next + (target - next).toInt32.toUInt32 = target := by
  rw [UInt32.toUInt32_toInt32, UInt32.add_comm, UInt32.sub_add_cancel]

theorem next_add_sub (delta next : UInt32) : next + delta - next = delta := by
  rw [UInt32.add_comm, UInt32.add_sub_cancel]

/-! ## What is written is decoded -/

section Decodes

variable {n : Nat}

theorem decodes_nextFrom (offset : UInt32) (tl : List UInt8) :
    Decodes (fun r => r.pos = n) (nextFrom offset) [] (offset + UInt32.ofNat n) tl := by
  refine Decodes.get_bind fun r hpos _ => ?_
  have hposition : r.position = n := hpos
  rw [hposition]
  exact Decodes.pure _ _ tl

/-- A target is read back from its distance to the next instruction. -/
theorem decodes_target {p : Read α} {bs tl : List UInt8} {delta : α} {offset next : UInt32}
    {g : UInt32 → α → Operand} (hp : Decodes (fun r => r.pos = n) p bs delta tl)
    (hnext : next = offset + UInt32.ofNat (n + bs.length)) :
    Decodes (fun r => r.pos = n) (do
      let delta ← p
      let next ← nextFrom offset
      return g next delta) bs (g next delta) tl := by
  have hfrom := (decodes_nextFrom (n := n + bs.length) offset tl).map fun next => g next delta
  rw [← hnext] at hfrom
  have hall := Decodes.bind (f := fun delta => do
    let next ← nextFrom offset
    return g next delta) hp (fun r hpos hrest => Reader.pos_advance r hpos hrest) hfrom
  rwa [List.append_nil] at hall

/-- The deltas of a switch are the distances to its targets. -/
theorem flatMap_deltas (targets : List UInt32) (next : UInt32) :
    targets.flatMap (fun target => leBytes 4 (target - next).toNat) =
      (targets.map fun target => (target - next).toInt32).flatMap fun d =>
        leBytes 4 d.toUInt32.toNat := by
  rw [List.flatMap_map]
  simp only [UInt32.toUInt32_toInt32]

/-- The targets of a switch are read back. -/
theorem decodes_switch {offset next : UInt32} {targets : List UInt32}
    (hnext : next = offset +
      UInt32.ofNat (n + (encOperand next .inlineSwitch (.switch targets)).length))
    (hshort : targets.length < 2 ^ 32) (tl : List UInt8) :
    Decodes (fun r => r.pos = n) (decodeSwitch offset)
      (encOperand next .inlineSwitch (.switch targets)) (.switch targets) tl := by
  have hdeltas := flatMap_deltas targets next
  rw [encOperand] at hnext ⊢
  rw [hdeltas] at hnext ⊢
  generalize hd : (targets.map fun target => (target - next).toInt32) = deltas at *
  have hcount : deltas.length = targets.length := by rw [← hd, List.length_map]
  have hblocks : (deltas.flatMap fun d => leBytes 4 d.toUInt32.toNat).length =
      deltas.length * 4 := length_flatMap_const fun d _ => leBytes_length 4 _
  rw [List.length_append, leBytes_length, hblocks] at hnext
  have htoNat : (UInt32.ofNat targets.length).toNat = deltas.length := by
    rw [hcount]
    exact UInt32.toNat_ofNat_of_lt' hshort
  have hfirst := Reader.decodes_u32 (fun r => r.pos = n) (UInt32.ofNat targets.length)
    ((deltas.flatMap fun d => leBytes 4 d.toUInt32.toNat) ++ tl)
  rw [htoNat, hcount] at hfirst
  refine Decodes.bind (Q := fun r => r.pos = n + 4) hfirst
    (fun r hpos hrest => by rw [Reader.pos_advance r hpos hrest, leBytes_length]) ?_
  refine Decodes.get_bind fun r _ hrest => ?_
  have hremaining : ¬ r.remaining / 4 < (UInt32.ofNat targets.length).toNat := by
    rw [Reader.remaining_of_rest hrest, hblocks, htoNat]
    omega
  have hrepeat : Decodes (fun r => r.pos = n + 4) (repeatM Reader.i32 deltas.length)
      (deltas.flatMap fun d => leBytes 4 d.toUInt32.toNat) deltas tl :=
    Decodes.weaken (Decodes.repeatM (fun _ _ _ => trivial) fun d _ tl' =>
      Reader.decodes_i32 (fun _ => True) d tl') fun _ _ => trivial
  have hresult : Operand.switch (deltas.map fun d => next + d.toUInt32) = .switch targets := by
    rw [← hd, List.map_map]
    refine congrArg Operand.switch ((List.map_congr_left fun target _ => ?_).trans (List.map_id _))
    exact add_sub_next target next
  rw [if_neg hremaining, htoNat, ← hresult]
  have hend : next = offset +
      UInt32.ofNat (n + 4 + (deltas.flatMap fun d => leBytes 4 d.toUInt32.toNat).length) := by
    rw [hblocks, Nat.add_assoc]
    exact hnext
  have htarget := decodes_target
    (g := fun next (deltas : List Int32) => .switch (deltas.map fun d => next + d.toUInt32))
    hrepeat hend
  exact htarget

/-- The operand of an instruction is read back. -/
theorem decodes_operand {opcode : OpCode} {offset next : UInt32} {operand : Operand}
    (hfits : OperandFits opcode next operand opcode.info.operand)
    (hnext : next = offset +
      UInt32.ofNat (n + (encOperand next opcode.info.operand operand).length))
    (hcount : ∀ targets, operand = .switch targets → targets.length < 2 ^ 32)
    (tl : List UInt8) :
    Decodes (fun r => r.pos = n) (decodeOperand offset opcode)
      (encOperand next opcode.info.operand operand) operand tl := by
  unfold decodeOperand
  cases hkind : opcode.info.operand with
  | inlineNone =>
      rw [hkind] at hfits
      cases hfits
      exact Decodes.pure _ _ tl
  | shortInlineI =>
      rw [hkind] at hfits
      simp only [OperandFits] at hfits
      -- only `ldc.i4.s` widens its byte, the prefixes keep theirs
      by_cases hwiden : opcode = .ldcI4S
      · rw [if_pos hwiden] at hfits
        obtain ⟨v, rfl⟩ := hfits
        have hread := (Reader.decodes_i8 (fun r => r.pos = n) v tl).map fun v =>
          Operand.i32 v.toInt32
        simpa [hwiden, encOperand] using hread
      · rw [if_neg hwiden] at hfits
        obtain ⟨v, rfl⟩ := hfits
        have hread := (Reader.decodes_i8 (fun r => r.pos = n) v tl).map Operand.i8
        simpa [hwiden, encOperand] using hread
  | inlineI =>
      rw [hkind] at hfits
      obtain ⟨v, rfl⟩ := hfits
      exact (Reader.decodes_i32 _ v tl).map Operand.i32
  | inlineI8 =>
      rw [hkind] at hfits
      obtain ⟨v, rfl⟩ := hfits
      exact (Reader.decodes_i64 _ v tl).map Operand.i64
  | shortInlineR =>
      rw [hkind] at hfits
      obtain ⟨bits, rfl⟩ := hfits
      exact (Reader.decodes_u32 _ bits tl).map Operand.r32
  | inlineR =>
      rw [hkind] at hfits
      obtain ⟨bits, rfl⟩ := hfits
      exact (Reader.decodes_u64 _ bits tl).map Operand.r64
  | shortInlineVar =>
      rw [hkind] at hfits
      obtain ⟨index, rfl⟩ := hfits
      have hread := (Reader.decodes_u8 (fun r => r.pos = n) index tl).map fun v =>
        Operand.var v.toUInt16
      simpa [encOperand] using hread
  | inlineVar =>
      rw [hkind] at hfits
      obtain ⟨index, rfl⟩ := hfits
      exact (Reader.decodes_u16 _ index tl).map Operand.var
  | shortInlineBrTarget =>
      rw [hkind] at hfits hnext
      obtain ⟨delta, rfl⟩ := hfits
      -- a target is stored as its distance from the next instruction
      have hbytes : encOperand next .shortInlineBrTarget
          (.branchTarget (next + delta.toInt32.toUInt32)) = [delta.toUInt8] := by
        rw [encOperand, next_add_sub, toUInt8_toInt32]
      rw [hbytes] at hnext ⊢
      have hread := decodes_target
        (g := fun next (delta : Int8) => .branchTarget (next + delta.toInt32.toUInt32))
        (Reader.decodes_i8 (fun r => r.pos = n) delta tl) hnext
      exact hread
  | inlineBrTarget =>
      rw [hkind] at hfits hnext
      obtain ⟨target, rfl⟩ := hfits
      have hbytes : encOperand next .inlineBrTarget (.branchTarget target) =
          leBytes 4 (target - next).toInt32.toUInt32.toNat := by
        rw [encOperand, UInt32.toUInt32_toInt32]
      rw [hbytes] at hnext ⊢
      have hread := decodes_target
        (g := fun next (delta : Int32) => .branchTarget (next + delta.toUInt32))
        (Reader.decodes_i32 (fun r => r.pos = n) (target - next).toInt32 tl) hnext
      rwa [add_sub_next] at hread
  | inlineSwitch =>
      rw [hkind] at hfits hnext
      obtain ⟨targets, rfl⟩ := hfits
      exact decodes_switch hnext (hcount targets rfl) tl
  | inlineMethod =>
      rw [hkind] at hfits
      obtain ⟨t, rfl⟩ := hfits
      exact (Reader.decodes_u32 _ t.value tl).map fun v => Operand.method ⟨v⟩
  | inlineField =>
      rw [hkind] at hfits
      obtain ⟨t, rfl⟩ := hfits
      exact (Reader.decodes_u32 _ t.value tl).map fun v => Operand.field ⟨v⟩
  | inlineType =>
      rw [hkind] at hfits
      obtain ⟨t, rfl⟩ := hfits
      exact (Reader.decodes_u32 _ t.value tl).map fun v => Operand.type ⟨v⟩
  | inlineTok =>
      rw [hkind] at hfits
      obtain ⟨t, rfl⟩ := hfits
      exact (Reader.decodes_u32 _ t.value tl).map fun v => Operand.tok ⟨v⟩
  | inlineSig =>
      rw [hkind] at hfits
      obtain ⟨t, rfl⟩ := hfits
      exact (Reader.decodes_u32 _ t.value tl).map fun v => Operand.sig ⟨v⟩
  | inlineString =>
      rw [hkind] at hfits
      obtain ⟨t, rfl⟩ := hfits
      exact (Reader.decodes_u32 _ t.value tl).map fun v => Operand.string ⟨v⟩

end Decodes

/-! ## What is decoded is what was written -/

section Reads

variable {offset : UInt32} {opcode : OpCode} {operand : Operand} {r r' : Reader}

/-- The operand was read from its encoding, and nothing else moved. -/
def ReadFrom (offset : UInt32) (opcode : OpCode) (operand : Operand) (r r' : Reader) : Prop :=
  Wire.rest r = encOperand (offset + UInt32.ofNat r'.pos) opcode.info.operand operand ++
      Wire.rest r' ∧
    r' = Wire.advance
      (encOperand (offset + UInt32.ofNat r'.pos) opcode.info.operand operand).length r ∧
    OperandFits opcode (offset + UInt32.ofNat r'.pos) operand opcode.info.operand

theorem nextFrom_ok {next : UInt32} (h : (nextFrom offset).run r = .ok next r') :
    r' = r ∧ next = offset + UInt32.ofNat r.pos := by
  obtain ⟨a, s, hget, hpure⟩ := run_bind_ok_iff.mp h
  cases hget
  cases hpure
  exact ⟨rfl, rfl⟩

/-- A target computed from a distance: where it was read and what it is. -/
theorem target_reads {p : Read α} {R : List UInt8 → α → Prop} {g : UInt32 → α → Operand}
    (hp : Reads p R)
    (h : (do
      let delta ← p
      let next ← nextFrom offset
      return g next delta).run r = .ok operand r') :
    ∃ bs delta, Wire.rest r = bs ++ Wire.rest r' ∧ r' = Wire.advance bs.length r ∧ R bs delta ∧
      operand = g (offset + UInt32.ofNat r'.pos) delta := by
  obtain ⟨delta, mid, hdelta, h⟩ := run_bind_ok_iff.mp h
  obtain ⟨bs, hrest, hmid, hR⟩ := hp _ _ _ hdelta
  obtain ⟨next, last, hnext, h⟩ := run_bind_ok_iff.mp h
  obtain ⟨rfl, rfl⟩ := nextFrom_ok hnext
  cases h
  exact ⟨bs, delta, hrest, hmid, hR, rfl⟩

/-- An operand that is one fixed field: its kind does not look at the offset. -/
theorem readFrom_of_reads {p : Read α} {f : α → List UInt8} {g : α → Operand}
    {kind : OperandKind} (hp : Reads p (fun bs v => bs = f v)) (hkind : opcode.info.operand = kind)
    (henc : ∀ v, encOperand (offset + UInt32.ofNat r'.pos) kind (g v) = f v)
    (hfits : ∀ v, OperandFits opcode (offset + UInt32.ofNat r'.pos) (g v) kind)
    (h : (do
      let v ← p
      return g v).run r = .ok operand r') : ReadFrom offset opcode operand r r' := by
  obtain ⟨_, hrest, hadvance, v, rfl, rfl⟩ := (hp.map g) _ _ _ h
  unfold ReadFrom
  rw [hkind, henc]
  exact ⟨hrest, hadvance, hfits v⟩

theorem switch_reads (hkind : opcode.info.operand = .inlineSwitch)
    (h : (decodeSwitch offset).run r = .ok operand r') : ReadFrom offset opcode operand r r' := by
  obtain ⟨count, mid, hcount, h⟩ := run_bind_ok_iff.mp h
  obtain ⟨_, hrest, rfl, rfl⟩ := Reader.reads_u32 _ _ _ hcount
  obtain ⟨_, _, hget, h⟩ := run_bind_ok_iff.mp h
  cases hget
  split at h
  · cases h
  · obtain ⟨_, deltas, hdeltas, hadvance, ⟨hlen, blocks, rfl, hall⟩, rfl⟩ :=
      target_reads (Reader.reads_i32.repeatM count.toNat) h
    rw [flatten_blocks hall] at hdeltas hadvance
    have henc : encOperand (offset + UInt32.ofNat r'.pos) .inlineSwitch
        (.switch (deltas.map fun d => offset + UInt32.ofNat r'.pos + d.toUInt32)) =
        leBytes 4 count.toNat ++ deltas.flatMap fun d => leBytes 4 d.toUInt32.toNat := by
      rw [encOperand, List.length_map, hlen, List.flatMap_map]
      simp only [next_add_sub]
    unfold ReadFrom
    rw [hkind, henc]
    refine ⟨?_, ?_, _, rfl⟩
    · rw [hrest, hdeltas, List.append_assoc]
    · rw [hadvance, Cursor.advance_advance, List.length_append]

/-- A successful run reads the encoding of the operand it returns. -/
theorem decodeOperand_reads (h : (decodeOperand offset opcode).run r = .ok operand r') :
    ReadFrom offset opcode operand r r' := by
  unfold decodeOperand at h
  cases hkind : opcode.info.operand with
  | inlineSwitch =>
      rw [hkind] at h
      exact switch_reads hkind h
  | inlineNone =>
      rw [hkind] at h
      obtain ⟨_, hrest, hadvance, rfl, rfl⟩ := Reads.pure (impliedOperand opcode) _ _ _ h
      unfold ReadFrom
      rw [hkind]
      exact ⟨hrest, hadvance, rfl⟩
  | shortInlineI =>
      rw [hkind] at h
      unfold ReadFrom
      rw [hkind]
      by_cases hwiden : opcode = .ldcI4S
      · simp only [if_pos hwiden] at h
        obtain ⟨_, hrest, hadvance, v, rfl, rfl⟩ :=
          (Reader.reads_i8.map fun v => Operand.i32 v.toInt32) _ _ _ h
        simp only [encOperand, OperandFits, if_pos hwiden, Int8.toInt8_toInt32]
        exact ⟨hrest, hadvance, v, rfl⟩
      · simp only [if_neg hwiden] at h
        obtain ⟨_, hrest, hadvance, v, rfl, rfl⟩ := (Reader.reads_i8.map Operand.i8) _ _ _ h
        simp only [encOperand, OperandFits, if_neg hwiden]
        exact ⟨hrest, hadvance, v, rfl⟩
  | shortInlineVar =>
      rw [hkind] at h
      obtain ⟨_, hrest, hadvance, v, rfl, rfl⟩ :=
        (Reader.reads_u8.map fun v => Operand.var v.toUInt16) _ _ _ h
      unfold ReadFrom
      rw [hkind]
      simp only [encOperand, OperandFits, UInt8.toUInt8_toUInt16]
      exact ⟨hrest, hadvance, v, rfl⟩
  | shortInlineBrTarget =>
      rw [hkind] at h
      obtain ⟨_, delta, hrest, hadvance, rfl, rfl⟩ := target_reads Reader.reads_i8
        (g := fun next (delta : Int8) => .branchTarget (next + delta.toInt32.toUInt32)) h
      unfold ReadFrom
      rw [hkind]
      simp only [encOperand, OperandFits, next_add_sub, toUInt8_toInt32]
      exact ⟨hrest, hadvance, delta, rfl⟩
  | inlineBrTarget =>
      rw [hkind] at h
      obtain ⟨_, delta, hrest, hadvance, rfl, rfl⟩ := target_reads Reader.reads_i32
        (g := fun next (delta : Int32) => .branchTarget (next + delta.toUInt32)) h
      unfold ReadFrom
      rw [hkind]
      simp only [encOperand, OperandFits, next_add_sub]
      exact ⟨hrest, hadvance, _, rfl⟩
  | inlineI =>
      rw [hkind] at h
      exact readFrom_of_reads Reader.reads_i32 hkind (fun _ => rfl) (fun v => ⟨v, rfl⟩) h
  | inlineI8 =>
      rw [hkind] at h
      exact readFrom_of_reads Reader.reads_i64 hkind (fun _ => rfl) (fun v => ⟨v, rfl⟩) h
  | shortInlineR =>
      rw [hkind] at h
      exact readFrom_of_reads Reader.reads_u32 hkind (fun _ => rfl) (fun v => ⟨v, rfl⟩) h
  | inlineR =>
      rw [hkind] at h
      exact readFrom_of_reads Reader.reads_u64 hkind (fun _ => rfl) (fun v => ⟨v, rfl⟩) h
  | inlineVar =>
      rw [hkind] at h
      exact readFrom_of_reads Reader.reads_u16 hkind (fun _ => rfl) (fun v => ⟨v, rfl⟩) h
  | inlineMethod =>
      rw [hkind] at h
      exact readFrom_of_reads Reader.reads_u32 hkind (fun _ => rfl) (fun v => ⟨⟨v⟩, rfl⟩) h
  | inlineField =>
      rw [hkind] at h
      exact readFrom_of_reads Reader.reads_u32 hkind (fun _ => rfl) (fun v => ⟨⟨v⟩, rfl⟩) h
  | inlineType =>
      rw [hkind] at h
      exact readFrom_of_reads Reader.reads_u32 hkind (fun _ => rfl) (fun v => ⟨⟨v⟩, rfl⟩) h
  | inlineTok =>
      rw [hkind] at h
      exact readFrom_of_reads Reader.reads_u32 hkind (fun _ => rfl) (fun v => ⟨⟨v⟩, rfl⟩) h
  | inlineSig =>
      rw [hkind] at h
      exact readFrom_of_reads Reader.reads_u32 hkind (fun _ => rfl) (fun v => ⟨⟨v⟩, rfl⟩) h
  | inlineString =>
      rw [hkind] at h
      exact readFrom_of_reads Reader.reads_u32 hkind (fun _ => rfl) (fun v => ⟨⟨v⟩, rfl⟩) h

/-- The targets of a switch were counted in a `u32`. -/
theorem decodeSwitch_returns : Returns (decodeSwitch offset) fun operand =>
    ∀ targets, operand = .switch targets → targets.length < 2 ^ 32 := by
  intro r operand r' h targets hswitch
  obtain ⟨count, _, _, h⟩ := run_bind_ok_iff.mp h
  obtain ⟨_, _, _, h⟩ := run_bind_ok_iff.mp h
  split at h
  · cases h
  · obtain ⟨_, deltas, _, _, ⟨hlen, _⟩, hoperand⟩ :=
      target_reads (Reader.reads_i32.repeatM count.toNat) h
    rw [hswitch] at hoperand
    cases hoperand
    rw [List.length_map, hlen]
    exact count.toNat_lt

theorem decodeOperand_returns (h : (decodeOperand offset opcode).run r = .ok operand r')
    (targets : List UInt32) (hswitch : operand = .switch targets) : targets.length < 2 ^ 32 := by
  have hkind : opcode.info.operand = .inlineSwitch := by
    rw [hswitch] at h
    exact kind_of_switch_fits (decodeOperand_reads h).2.2
  unfold decodeOperand at h
  rw [hkind] at h
  exact decodeSwitch_returns _ _ _ h targets hswitch

end Reads

/-! ## The inverse -/

theorem Instruction.Encodable.size_ofNat {i : Instruction} (hi : i.Encodable) :
    i.size = UInt32.ofNat i.enc.length := by
  rw [← hi.size_eq, UInt32.ofNat_toNat]

theorem Instruction.enc_length (i : Instruction) : i.enc.length = i.opcode.info.size +
    (encOperand i.nextOffset i.opcode.info.operand i.operand).length := by
  rw [Instruction.enc, List.length_append, OpCode.bytes_length]

/-- The bytes of an instruction are read back by the decoder of its opcode. -/
theorem decodes_rest {i : Instruction}
    (hfits : OperandFits i.opcode i.nextOffset i.operand i.opcode.info.operand)
    (hsize : i.size = UInt32.ofNat i.enc.length)
    (hcount : ∀ targets, i.operand = .switch targets → targets.length < 2 ^ 32)
    (tl : List UInt8) :
    Decodes (fun r => r.pos = 0) (decodeRest i.offset i.opcode i.opcode.info.size) i.enc
      (i.operand, i.size) tl := by
  have hlen := i.enc_length
  have hskip := Reader.decodes_skip (fun r => r.pos = 0) i.opcode.bytes
    (encOperand i.nextOffset i.opcode.info.operand i.operand ++ tl)
  have hnext : i.nextOffset = i.offset + UInt32.ofNat (i.opcode.info.size +
      (encOperand i.nextOffset i.opcode.info.operand i.operand).length) := by
    rw [← hlen, ← hsize]
    rfl
  have hoperand := decodes_operand hfits hnext hcount tl
  have hend : Decodes (fun r : Reader => r.pos = i.enc.length) (do
      let r ← (get : Read Reader)
      return (i.operand, UInt32.ofNat r.position)) [] (i.operand, i.size) tl := by
    refine Decodes.get_bind fun r hpos _ => ?_
    have hposition : r.position = i.enc.length := hpos
    rw [hposition, ← hsize]
    exact Decodes.pure _ _ tl
  rw [OpCode.bytes_length] at hskip
  refine Decodes.bind (Q := fun r => r.pos = i.opcode.info.size) hskip ?_ ?_
  · intro r hpos hrest
    rw [Reader.pos_advance r hpos hrest, OpCode.bytes_length, Nat.zero_add]
  · have hlast := Decodes.bind (f := fun operand => do
        let r ← (get : Read Reader)
        return (operand, UInt32.ofNat r.position)) hoperand
      (fun r hpos hrest => by rw [Reader.pos_advance r hpos hrest, ← hlen]) hend
    rwa [List.append_nil] at hlast

/-- What is written at an offset is decoded there, in code of any length. -/
theorem decodeAt_of_enc {i : Instruction} {p s : List UInt8} (hoffset : i.offset.toNat = p.length)
    (hfits : OperandFits i.opcode i.nextOffset i.operand i.opcode.info.operand)
    (hsize : i.size = UInt32.ofNat i.enc.length)
    (hcount : ∀ targets, i.operand = .switch targets → targets.length < 2 ^ 32) :
    decodeAt (p ++ (i.enc ++ s)) i.offset = .ok i := by
  have hslice : slice? (p ++ (i.enc ++ s)) p.length (p ++ (i.enc ++ s)).length =
      some (i.enc ++ s) := by
    rw [slice?_eq_some_iff]
    refine ⟨⟨by rw [List.length_append]; omega, Nat.le_refl _⟩, ?_⟩
    rw [List.drop_left, List.length_append, Nat.add_sub_cancel_left, List.take_length]
  have hopcode : OpCode.fromBytes (i.enc ++ s) = .ok (i.opcode, i.opcode.info.size) := by
    rw [Instruction.enc, List.append_assoc]
    exact i.opcode.fromBytes_append _
  have hrun := decodes_rest hfits hsize hcount s (Reader.new (i.enc ++ s) p.length cilContext) rfl
    (by rw [Reader.cursor_rest, Reader.rest_new])
  simp only [decodeAt, hoffset, hslice, hopcode, hrun]

/-- A switch has fewer targets than bytes. -/
theorem targets_length_le (next : UInt32) (targets : List UInt32) :
    targets.length ≤ (encOperand next .inlineSwitch (.switch targets)).length := by
  rw [encOperand, List.length_append, length_flatMap_const fun _ _ => leBytes_length 4 _]
  omega

/-- What is written at an offset is decoded there. -/
theorem decodeAt_enc {i : Instruction} {p s : List UInt8}
    (hlen : (p ++ (i.enc ++ s)).length < 2 ^ 32) (hoffset : i.offset.toNat = p.length)
    (hi : i.Encodable) : decodeAt (p ++ (i.enc ++ s)) i.offset = .ok i := by
  rw [List.length_append, List.length_append] at hlen
  refine decodeAt_of_enc hoffset hi.fits hi.size_ofNat ?_
  intro targets htargets
  have hfits := hi.fits
  have henc := i.enc_length
  rw [htargets] at hfits henc
  have hle := targets_length_le i.nextOffset targets
  rw [kind_of_switch_fits hfits] at henc
  omega

/-- What is decoded at an offset stands there, and its size is that of its encoding modulo
`2 ^ 32`. -/
theorem decodeAt_reads {code : List UInt8} {offset : UInt32} {i : Instruction}
    (h : decodeAt code offset = .ok i) :
    i.offset = offset ∧ (∃ tl, code.drop offset.toNat = i.enc ++ tl) ∧
      i.size = UInt32.ofNat i.enc.length ∧
      OperandFits i.opcode i.nextOffset i.operand i.opcode.info.operand ∧
      ∀ targets, i.operand = .switch targets → targets.length < 2 ^ 32 := by
  simp only [decodeAt] at h
  split at h
  · cases h
  · rename_i rest hslice
    obtain ⟨⟨hstart, _⟩, hdrop⟩ := slice?_eq_some_iff.mp hslice
    split at h
    · cases h
    · rename_i opcode opcodeSize hopcode
      obtain ⟨rfl, tl, hbytes⟩ := OpCode.fromBytes_ok hopcode
      split at h
      · rename_i operand size r' hrun
        cases h
        obtain ⟨_, r1, hskip, hrun⟩ := run_bind_ok_iff.mp hrun
        obtain ⟨_, r2, hoperand, hrun⟩ := run_bind_ok_iff.mp hrun
        obtain ⟨_, _, hget, hrun⟩ := run_bind_ok_iff.mp hrun
        cases hget
        cases hrun
        obtain ⟨bs, hfront, rfl, hbs⟩ := Reader.reads_skip _ _ _ _ hskip
        obtain ⟨hrest, hadvance, hfits⟩ := decodeOperand_reads hoperand
        rw [Reader.cursor_rest, Reader.rest_new] at hfront
        -- the bytes that were skipped are those the opcode was told by
        have hbsop : bs = opcode.bytes :=
          (List.append_inj (hfront.symm.trans hbytes) (by rw [hbs, OpCode.bytes_length])).1
        subst hbsop
        have hpos1 := Reader.pos_advance (n := 0) (Reader.new rest offset.toNat cilContext) rfl
          (hfront.trans rfl)
        rw [Nat.zero_add] at hpos1
        have hpos2 := Reader.pos_advance _ hpos1 hrest
        rw [← hadvance] at hpos2
        have henc : Instruction.enc ⟨offset, UInt32.ofNat r'.position, opcode, operand⟩ =
            opcode.bytes ++ encOperand (offset + UInt32.ofNat r'.pos) opcode.info.operand operand :=
          rfl
        have hlength : r'.pos =
            (Instruction.enc ⟨offset, UInt32.ofNat r'.position, opcode, operand⟩).length := by
          rw [henc, List.length_append]
          exact hpos2
        refine ⟨rfl, ⟨Wire.rest r', ?_⟩, congrArg UInt32.ofNat hlength, hfits,
          decodeOperand_returns hoperand⟩
        rw [henc, List.append_assoc, ← hrest, ← hfront, hdrop, ← List.length_drop,
          List.take_length]
      · cases h

/-- What is decoded at an offset is what is written there. -/
theorem enc_of_decodeAt {code : List UInt8} {offset : UInt32} {i : Instruction}
    (hlen : code.length < 2 ^ 32) (h : decodeAt code offset = .ok i) :
    i.offset = offset ∧ (code.drop offset.toNat).take i.size.toNat = i.enc ∧ i.Encodable := by
  obtain ⟨hoffset, ⟨tl, hcode⟩, hsize, hfits, _⟩ := decodeAt_reads h
  -- the code is shorter than 2 ^ 32, so the size does not wrap
  have hle := congrArg List.length hcode
  rw [List.length_drop, List.length_append] at hle
  have htoNat : i.size.toNat = i.enc.length := by
    rw [hsize]
    exact UInt32.toNat_ofNat_of_lt' (by
      show i.enc.length < 2 ^ 32
      omega)
  refine ⟨hoffset, ?_, htoNat, hfits⟩
  rw [hcode, htoNat, List.take_left]

/-- `decodeAt` is the exact inverse of the encoding: what it decodes is encoded at the
offset, and what is encoded there it decodes, whatever stands before and after. -/
theorem decodeAt_inverse :
    (∀ (code : List UInt8) (offset : UInt32) (i : Instruction), code.length < 2 ^ 32 →
      decodeAt code offset = .ok i →
      i.offset = offset ∧ (code.drop offset.toNat).take i.size.toNat = i.enc ∧ i.Encodable) ∧
    (∀ (i : Instruction) (p s : List UInt8), (p ++ (i.enc ++ s)).length < 2 ^ 32 →
      i.offset.toNat = p.length → i.Encodable →
      decodeAt (p ++ (i.enc ++ s)) i.offset = .ok i) :=
  ⟨fun _ _ _ hlen h => enc_of_decodeAt hlen h, fun _ _ _ hlen hoffset hi =>
    decodeAt_enc hlen hoffset hi⟩

/-- `nop`, then a `br.s` to itself. -/
theorem decodeAt_inverse_branch :
    decodeAt [0x00, 0x2B, 0xFE] 1 = .ok ⟨1, 2, .brS, .branchTarget 1⟩ :=
  decodeAt_inverse.2 ⟨1, 2, .brS, .branchTarget 1⟩ [0x00] [] (by decide) rfl
    ⟨by decide, -2, by decide⟩

end Cildec
