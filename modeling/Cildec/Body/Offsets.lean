import Cildec.Body.Handlers
import Cildec.Il.Iter

/-!
# Instruction offsets of a body (`src/body.rs`)

Two loops over one instruction stream: `instruction_offsets` collects the offsets,
`is_instruction_boundary` looks for one of them and gives up at the first larger one. Over a
run they are a list and a search in it (`offsetsFrom_eq`, `boundaryFrom_iff`), and the search
may give up early because the instructions of a run tile the code.
-/

namespace Cildec

open Wire

namespace MethodBody

/-- The code as a raw instruction stream. -/
def instructions (body : MethodBody) : InstructionIter := .new body.code

/-- The loop of `instruction_offsets`. -/
def offsetsFrom (offsets : List UInt32) (it : InstructionIter) : List UInt32 :=
  match _h : it.next with
  | (some (.ok instruction), it') => offsetsFrom (offsets ++ [instruction.offset]) it'
  | (some (.error _), _) => offsets
  | (none, _) => offsets
termination_by it.left
decreasing_by exact InstructionIter.left_next _h

/-- The IL offset of every instruction, in order, up to the first error. -/
def instructionOffsets (body : MethodBody) : List UInt32 := offsetsFrom [] body.instructions

/-- The loop of `is_instruction_boundary`. -/
def boundaryFrom (offset : UInt32) (it : InstructionIter) : Bool :=
  match _h : it.next with
  | (some (.ok instruction), it') =>
      if instruction.offset = offset then true
      else if offset < instruction.offset then false
      else boundaryFrom offset it'
  | (some (.error _), _) => false
  | (none, _) => false
termination_by it.left
decreasing_by exact InstructionIter.left_next _h

/-- `offset` is the start of an instruction. -/
def isInstructionBoundary (body : MethodBody) (offset : UInt32) : Bool :=
  boundaryFrom offset body.instructions

/-! ## One round -/

section Rounds

variable {it it' : InstructionIter} {i : Instruction} {offset : UInt32} {offsets : List UInt32}

theorem offsetsFrom_ok (h : it.next = (some (.ok i), it')) :
    offsetsFrom offsets it = offsetsFrom (offsets ++ [i.offset]) it' := by
  rw [offsetsFrom]
  split <;> simp_all

theorem offsetsFrom_stop (h : ∀ i it', it.next ≠ (some (.ok i), it')) :
    offsetsFrom offsets it = offsets := by
  rw [offsetsFrom]
  split <;> simp_all

theorem boundaryFrom_ok (h : it.next = (some (.ok i), it')) :
    boundaryFrom offset it =
      if i.offset = offset then true
      else if offset < i.offset then false
      else boundaryFrom offset it' := by
  rw [boundaryFrom]
  split <;> simp_all

theorem boundaryFrom_stop (h : ∀ i it', it.next ≠ (some (.ok i), it')) :
    boundaryFrom offset it = false := by
  rw [boundaryFrom]
  split <;> simp_all

end Rounds

/-! ## Whole runs -/

section Runs

variable {it last : InstructionIter} {err : Option Error}

/-- After its instructions a run has no other one. -/
theorem next_ne_ok (h : Yields InstructionIter.next it (err.toList.map .error) last)
    (i : Instruction) (it' : InstructionIter) : it.next ≠ (some (.ok i), it') := by
  intro hnext
  cases err with
  | none =>
      cases h with
      | done hdone =>
          rw [hnext] at hdone
          cases hdone
  | some e =>
      cases h with
      | item hitem _ =>
          rw [hnext] at hitem
          cases hitem

theorem offsetsFrom_eq {is : List Instruction} (offsets : List UInt32)
    (h : Yields InstructionIter.next it (is.map .ok ++ err.toList.map .error) last) :
    offsetsFrom offsets it = offsets ++ is.map (·.offset) := by
  induction is generalizing it offsets with
  | nil => rw [offsetsFrom_stop (next_ne_ok h), List.map_nil, List.append_nil]
  | cons i is ih =>
      cases h with
      | item hnext htail =>
          rw [offsetsFrom_ok hnext, ih _ htail, List.map_cons, List.append_assoc,
            List.singleton_append]

/-- The search may give up at a larger offset: the later ones are larger still. -/
theorem boundaryFrom_iff {is : List Instruction} (offset : UInt32)
    (h : Yields InstructionIter.next it (is.map .ok ++ err.toList.map .error) last)
    (hups : is.Pairwise fun i j => i.offset.toNat < j.offset.toNat) :
    boundaryFrom offset it = true ↔ offset ∈ is.map (·.offset) := by
  induction is generalizing it with
  | nil => simp [boundaryFrom_stop (next_ne_ok h)]
  | cons i is ih =>
      obtain ⟨hlater, hups⟩ := List.pairwise_cons.mp hups
      cases h with
      | item hnext htail =>
          rw [boundaryFrom_ok hnext, List.map_cons, List.mem_cons]
          by_cases hhere : i.offset = offset
          · rw [if_pos hhere]
            exact iff_of_true rfl (.inl hhere.symm)
          · rw [if_neg hhere]
            by_cases hpast : offset < i.offset
            · rw [if_pos hpast]
              refine iff_of_false (by decide) ?_
              rintro (heq | hmem)
              · exact hhere heq.symm
              · obtain ⟨j, hj, rfl⟩ := List.mem_map.mp hmem
                have hlt := hlater j hj
                have hlt' := UInt32.lt_iff_toNat_lt.mp hpast
                omega
            · rw [if_neg hpast, ih htail hups]
              exact ⟨.inr, fun hmem => hmem.resolve_left (Ne.symm hhere)⟩

end Runs

/-- In a parsed body the search agrees with the list, wherever decoding stops; the offsets go
up and lie in the code. -/
theorem isInstructionBoundary_iff {bytes : List UInt8} {codeRva : UInt32}
    {strictness : Strictness} {body : MethodBody}
    (hok : MethodBody.parseWith bytes codeRva strictness = .ok body) :
    (∀ offset, body.isInstructionBoundary offset = true ↔ offset ∈ body.instructionOffsets) ∧
    body.instructionOffsets.Pairwise (· < ·) ∧
    ∀ offset ∈ body.instructionOffsets, offset.toNat < body.code.length := by
  have hlen : body.code.length < 2 ^ 32 := by
    have hle := MethodBody.code_length_le hok
    rw [u32Max] at hle
    omega
  obtain ⟨⟨items, last, hrun⟩, htiles, _⟩ := InstructionIter.run_tiles body.code hlen
  obtain ⟨is, err, rfl, htile, hend, _⟩ := htiles _ _ hrun
  have hoffsets : body.instructionOffsets = is.map (·.offset) := by
    rw [instructionOffsets, instructions, offsetsFrom_eq [] hrun, List.nil_append]
  rw [hoffsets]
  refine ⟨fun offset => boundaryFrom_iff offset hrun htile.pairwise, ?_, ?_⟩
  · rw [List.pairwise_map]
    exact htile.pairwise.imp fun hlt => UInt32.lt_iff_toNat_lt.mpr hlt
  · intro offset hmem
    obtain ⟨i, hi, rfl⟩ := List.mem_map.mp hmem
    have hle := hend i hi
    have hsize := htile.size_pos i hi
    omega

/-- A tiny body of `nop` and a byte that is no opcode: decoding stops at offset 1. -/
theorem isInstructionBoundary_unknownOpcode : ∃ body,
    MethodBody.parse [0x0A, 0x00, 0xFF] 0 = .ok body ∧
    (body.isInstructionBoundary 1 = true ↔ 1 ∈ body.instructionOffsets) := by
  have hok : (MethodBody.parse [0x0A, 0x00, 0xFF] 0).isOk := by decide +kernel
  obtain ⟨body, hbody⟩ := exists_ok_of_isOk hok
  exact ⟨body, hbody, (isInstructionBoundary_iff hbody).1 1⟩

end MethodBody

end Cildec
