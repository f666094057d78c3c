import Cildec.Il.Encode
import Cildec.Lib.Iter

/-!
# The raw instruction stream (`src/il/mod.rs`)

`InstructionIter` decodes one instruction after another. Over a code of fewer than
`2 ^ 32` bytes its offset never wraps, so the instructions of a run tile the code up to
where it ends or where decoding fails (`InstructionIter.run_tiles`).
-/

namespace Cildec

open Wire

/-! ## Where a decoded instruction stands -/

theorem Instruction.enc_pos (i : Instruction) : 1 ≤ i.enc.length := by
  have hsize := i.opcode.size_pos
  rw [i.enc_length]
  omega

/-- A decoded instruction has at least one byte, and all of them in the code. -/
theorem decodeAt_bounds {code : List UInt8} {offset : UInt32} {i : Instruction}
    (hlen : code.length < 2 ^ 32) (h : decodeAt code offset = .ok i) :
    i.offset = offset ∧ 1 ≤ i.size.toNat ∧ offset.toNat + i.size.toNat ≤ code.length := by
  obtain ⟨hoffset, hbytes, hi⟩ := enc_of_decodeAt hlen h
  have hpos := i.enc_pos
  have hsize := hi.size_eq
  have htake := congrArg List.length hbytes
  rw [List.length_take, List.length_drop] at htake
  exact ⟨hoffset, by omega, by omega⟩

/-- The next offset does not wrap. -/
theorem decodeAt_nextOffset {code : List UInt8} {offset : UInt32} {i : Instruction}
    (hlen : code.length < 2 ^ 32) (h : decodeAt code offset = .ok i) :
    i.nextOffset.toNat = offset.toNat + i.size.toNat := by
  obtain ⟨hoffset, _, hend⟩ := decodeAt_bounds hlen h
  rw [Instruction.nextOffset, hoffset, UInt32.toNat_add]
  exact Nat.mod_eq_of_lt (by omega)

/-! ## Where decoding fails -/

section FailsIn

open Reader

variable {lo hi : Nat}

theorem failsIn_nextFrom (offset : UInt32) : FailsIn lo hi (nextFrom offset) :=
  FailsIn.get_bind fun _ => FailsIn.pure _

theorem failsIn_target {p : Read α} {R : List UInt8 → α → Prop} (offset : UInt32)
    (g : UInt32 → α → Operand) (hp : FailsIn lo hi p) (hreads : Reads p R) :
    FailsIn lo hi (do
      let delta ← p
      let next ← nextFrom offset
      return g next delta) :=
  hp.bind hreads fun delta => (failsIn_nextFrom offset).map fun next => g next delta

theorem failsIn_switch {offset : UInt32} (hlo : lo ≤ offset.toNat) (hhi : offset.toNat ≤ hi) :
    FailsIn lo hi (decodeSwitch offset) := by
  refine failsIn_u32.bind reads_u32 fun count => FailsIn.get_bind fun r => ?_
  split
  · exact FailsIn.throw _ _ hlo hhi
  · exact failsIn_target offset
      (fun next deltas => .switch (deltas.map fun d : Int32 => next + d.toUInt32))
      (failsIn_i32.repeatM reads_i32 _) (reads_i32.repeatM _)

theorem failsIn_operand {offset : UInt32} (opcode : OpCode) (hlo : lo ≤ offset.toNat)
    (hhi : offset.toNat ≤ hi) : FailsIn lo hi (decodeOperand offset opcode) := by
  unfold decodeOperand
  split
  · exact FailsIn.pure _
  · refine failsIn_i8.bind reads_i8 fun value => ?_
    split <;> exact FailsIn.pure _
  · exact failsIn_i32.map _
  · exact failsIn_i64.map _
  · exact failsIn_u32.map _
  · exact failsIn_u64.map _
  · exact failsIn_u8.map _
  · exact failsIn_u16.map _
  · exact failsIn_target offset (fun next (d : Int8) => .branchTarget (next + d.toInt32.toUInt32))
      failsIn_i8 reads_i8
  · exact failsIn_target offset (fun next (d : Int32) => .branchTarget (next + d.toUInt32))
      failsIn_i32 reads_i32
  · exact failsIn_switch hlo hhi
  all_goals exact failsIn_u32.map _

/-- A failure of the opcode decoder names one of the first bytes. -/
theorem OpCode.fromBytes_error {bytes : List UInt8} {e : Error} (hpos : 0 < bytes.length)
    (h : fromBytes bytes = .error e) : ∃ o, e.offset = some o ∧ o ≤ bytes.length := by
  unfold fromBytes at h
  split at h
  · cases hpos
  · rename_i first rest
    split at h
    · split at h
      · cases h
        exact ⟨1, rfl, Nat.le_refl _⟩
      · split at h <;> cases h
        exact ⟨0, rfl, Nat.zero_le _⟩
    · split at h <;> cases h
      exact ⟨0, rfl, Nat.zero_le _⟩

/-- A failure names an offset between the instruction and the end of the code. -/
theorem decodeAt_error {code : List UInt8} {offset : UInt32} {e : Error}
    (hlen : code.length < 2 ^ 32) (hlt : offset.toNat < code.length)
    (h : decodeAt code offset = .error e) :
    ∃ o, e.offset = some o ∧ offset.toNat ≤ o ∧ o ≤ code.length := by
  simp only [decodeAt] at h
  split at h
  · cases h
    exact ⟨offset.toNat, rfl, Nat.le_refl _, Nat.le_of_lt hlt⟩
  · rename_i rest hslice
    have hrest := length_of_slice? hslice
    split at h
    · rename_i e' hopcode
      cases h
      obtain ⟨o, ho, hle⟩ := OpCode.fromBytes_error (by omega) hopcode
      -- the opcode is told from the rest of the code, and its error rebased
      have hmax : o + offset.toNat ≤ usizeMax := by
        simp only [usizeMax]
        omega
      refine ⟨o + offset.toNat, ?_, by omega, by omega⟩
      rw [Error.rebase, ho]
      simp only [satAdd, Nat.min_eq_left hmax]
    · rename_i opcode opcodeSize hopcode
      split at h
      · cases h
      · rename_i e' r' hrun
        cases h
        have hfails : FailsIn offset.toNat (offset.toNat + rest.length)
            (decodeRest offset opcode opcodeSize) := by
          refine (failsIn_skip opcodeSize).bind (reads_skip opcodeSize) fun _ => ?_
          intro r e r' hbase hlen hmax h
          rw [EStateM.run_bind] at h
          cases hoperand : (decodeOperand offset opcode).run r with
          | ok operand mid =>
              rw [hoperand] at h
              cases h
          | error e' mid =>
              rw [hoperand] at h
              cases h
              exact failsIn_operand opcode (Nat.le_refl _) (by omega) _ _ _ hbase hlen hmax hoperand
        obtain ⟨o, ho, hlo, hhi⟩ := hfails _ _ _ rfl rfl (by
          simp only [usizeMax]
          omega) hrun
        exact ⟨o, ho, hlo, by omega⟩

end FailsIn

/-! ## Tilings -/

/-- The instructions stand one after another, none of them empty, from `start` to `stop`. -/
def Tiles : Nat → List Instruction → Nat → Prop
  | start, [], stop => start = stop
  | start, i :: is, stop =>
      i.offset.toNat = start ∧ 1 ≤ i.size.toNat ∧ Tiles (start + i.size.toNat) is stop

theorem Tiles.sum_sizes {start stop : Nat} {is : List Instruction} (h : Tiles start is stop) :
    start + (is.map fun i => i.size.toNat).sum = stop := by
  induction is generalizing start with
  | nil => exact h
  | cons i is ih =>
      obtain ⟨_, _, htail⟩ := h
      have hsum := ih htail
      rw [List.map_cons, List.sum_cons]
      omega

theorem Tiles.end_le {start stop : Nat} {is : List Instruction} (h : Tiles start is stop) :
    ∀ i ∈ is, i.offset.toNat + i.size.toNat ≤ stop := by
  induction is generalizing start with
  | nil =>
      intro i hi
      cases hi
  | cons i is ih =>
      obtain ⟨hoffset, _, htail⟩ := h
      have hsum := htail.sum_sizes
      intro j hj
      rcases List.mem_cons.mp hj with rfl | hj
      · omega
      · exact ih htail j hj

theorem tiles_append {start stop : Nat} {is js : List Instruction} :
    Tiles start (is ++ js) stop ↔ ∃ mid, Tiles start is mid ∧ Tiles mid js stop := by
  induction is generalizing start with
  | nil =>
      constructor
      · intro h
        exact ⟨start, rfl, h⟩
      · rintro ⟨mid, rfl, h⟩
        exact h
  | cons i is ih =>
      rw [List.cons_append]
      simp only [Tiles, ih]
      constructor
      · rintro ⟨hoffset, hsize, mid, his, hjs⟩
        exact ⟨mid, ⟨hoffset, hsize, his⟩, hjs⟩
      · rintro ⟨mid, ⟨hoffset, hsize, his⟩, hjs⟩
        exact ⟨hoffset, hsize, mid, his, hjs⟩

theorem Tiles.start_le {start stop : Nat} {is : List Instruction} (h : Tiles start is stop) :
    ∀ i ∈ is, start ≤ i.offset.toNat := by
  induction is generalizing start with
  | nil =>
      intro i hi
      cases hi
  | cons i is ih =>
      obtain ⟨hoffset, _, htail⟩ := h
      intro j hj
      rcases List.mem_cons.mp hj with rfl | hj
      · omega
      · have := ih htail j hj
        omega

theorem Tiles.size_pos {start stop : Nat} {is : List Instruction} (h : Tiles start is stop) :
    ∀ i ∈ is, 1 ≤ i.size.toNat := by
  induction is generalizing start with
  | nil =>
      intro i hi
      cases hi
  | cons i is ih =>
      obtain ⟨_, hsize, htail⟩ := h
      intro j hj
      rcases List.mem_cons.mp hj with rfl | hj
      · exact hsize
      · exact ih htail j hj

/-- The offsets of a tiling go up. -/
theorem Tiles.pairwise {start stop : Nat} {is : List Instruction} (h : Tiles start is stop) :
    is.Pairwise fun i j => i.offset.toNat < j.offset.toNat := by
  induction is generalizing start with
  | nil => exact .nil
  | cons i is ih =>
      obtain ⟨hoffset, hsize, htail⟩ := h
      refine .cons (fun j hj => ?_) (ih htail)
      have := htail.start_le j hj
      omega

/-! ## The iterator -/

/-- The raw instruction stream of a method body. -/
structure InstructionIter where
  code : List UInt8
  offset : UInt32
  done : Bool
  deriving DecidableEq, Repr

namespace InstructionIter

/-- Decodes `code` from offset 0. -/
def new (code : List UInt8) : InstructionIter := ⟨code, 0, false⟩

def next (it : InstructionIter) : Option (Result Instruction) × InstructionIter :=
  if it.done = true ∨ it.code.length ≤ it.offset.toNat then
    (none, it)
  else
    match decodeAt it.code it.offset with
    | .ok instruction =>
        let next := instruction.nextOffset
        -- a `u32` that wrapped would loop forever
        if next ≤ it.offset then
          (some (.ok instruction), { it with done := true })
        else
          (some (.ok instruction), { it with offset := next })
    | .error e => (some (.error e), { it with done := true })

/-- The iterator is about to stop because the next offset is not past its own. -/
def StopsShort (it : InstructionIter) : Prop :=
  it.done = false ∧ it.offset.toNat < it.code.length ∧
    ∃ i, decodeAt it.code it.offset = .ok i ∧ i.nextOffset ≤ it.offset

/-! ## One call -/

variable {it it' : InstructionIter} {i : Instruction} {e : Error}

theorem next_of_end (h : it.done = true ∨ it.code.length ≤ it.offset.toNat) :
    it.next = (none, it) := if_pos h

/-- An error ends the iterator. -/
theorem done_of_error (h : it.next = (some (.error e), it')) : it'.done = true := by
  simp only [next] at h
  split at h
  · cases h
  · split at h
    · split at h <;> cases h
    · cases h
      rfl

/-- The iterator still has code before it. -/
structure Live (it : InstructionIter) : Prop where
  not_done : it.done = false
  short : it.code.length < 2 ^ 32
  offset_le : it.offset.toNat ≤ it.code.length

namespace Live

theorem new {code : List UInt8} (h : code.length < 2 ^ 32) : (new code).Live :=
  ⟨rfl, h, Nat.zero_le _⟩

theorem not_end (hit : it.Live) (h : it.offset.toNat < it.code.length) :
    ¬ (it.done = true ∨ it.code.length ≤ it.offset.toNat) := by
  rw [hit.not_done]
  simp only [Bool.false_eq_true, false_or]
  omega

theorem not_stopsShort (hit : it.Live) : ¬ it.StopsShort := by
  rintro ⟨_, _, i, hdecode, hle⟩
  obtain ⟨_, hsize, _⟩ := decodeAt_bounds hit.short hdecode
  have hnext := decodeAt_nextOffset hit.short hdecode
  have hle' := UInt32.le_iff_toNat_le.mp hle
  omega

theorem next_of_ok (hit : it.Live) (h : it.offset.toNat < it.code.length)
    (hdecode : decodeAt it.code it.offset = .ok i) :
    it.next = (some (.ok i), { it with offset := i.nextOffset }) := by
  have hadvances : ¬ i.nextOffset ≤ it.offset := fun hle =>
    hit.not_stopsShort ⟨hit.not_done, h, i, hdecode, hle⟩
  simp only [next, if_neg (hit.not_end h), hdecode, if_neg hadvances]

theorem next_of_error (hit : it.Live) (h : it.offset.toNat < it.code.length)
    (hdecode : decodeAt it.code it.offset = .error e) :
    it.next = (some (.error e), { it with done := true }) := by
  simp only [next, if_neg (hit.not_end h), hdecode]

/-- After an instruction the iterator stands behind it. -/
theorem advance (hit : it.Live) (hdecode : decodeAt it.code it.offset = .ok i) :
    Live { it with offset := i.nextOffset } := by
  obtain ⟨_, _, hend⟩ := decodeAt_bounds hit.short hdecode
  refine ⟨hit.not_done, hit.short, ?_⟩
  simp only [decodeAt_nextOffset hit.short hdecode]
  exact hend

/-- Everything a call of a live iterator can do. -/
theorem next_cases (hit : it.Live) :
    (it.offset.toNat = it.code.length ∧ it.next = (none, it)) ∨
    (∃ i, decodeAt it.code it.offset = .ok i ∧
      it.next = (some (.ok i), { it with offset := i.nextOffset })) ∨
    (∃ e, it.offset.toNat < it.code.length ∧ decodeAt it.code it.offset = .error e ∧
      it.next = (some (.error e), { it with done := true })) := by
  have hle := hit.offset_le
  by_cases hend : it.code.length ≤ it.offset.toNat
  · exact .inl ⟨by omega, next_of_end (.inr hend)⟩
  · have hlt : it.offset.toNat < it.code.length := by omega
    cases hdecode : decodeAt it.code it.offset with
    | ok i => exact .inr (.inl ⟨i, rfl, hit.next_of_ok hlt hdecode⟩)
    | error e => exact .inr (.inr ⟨e, hlt, rfl, hit.next_of_error hlt hdecode⟩)

end Live

/-! ## Whole runs -/

/-- How much further the offset can go; nothing once the iterator is done. -/
def left (it : InstructionIter) : Nat := if it.done then 0 else 2 ^ 32 - it.offset.toNat

/-- Every item brings the iterator closer to its end, whatever the code. -/
theorem left_next {item : Result Instruction} (h : it.next = (some item, it')) :
    it'.left < it.left := by
  have hoffset := it.offset.toNat_lt
  simp only [next] at h
  split at h
  · cases h
  · rename_i hnot
    have hdone : it.done = false := Bool.eq_false_iff.mpr fun hdone => hnot (.inl hdone)
    split at h
    · split at h
      · cases h
        simp only [left, hdone, if_true, Bool.false_eq_true, if_false]
        omega
      · rename_i i _ hadvances
        cases h
        have hlt := UInt32.lt_iff_toNat_lt.mp (UInt32.not_le.mp hadvances)
        simp only [left, hdone, Bool.false_eq_true, if_false]
        omega
    · cases h
      simp only [left, hdone, if_true, Bool.false_eq_true, if_false]
      omega

/-- The items of a run: instructions that tile the code, then at most one error, where
the instructions end. -/
theorem tiles_of_yields {items : List (Result Instruction)}
    (h : Yields next it items it') (hit : it.Live) :
    ∃ (is : List Instruction) (err : Option Error),
      items = is.map .ok ++ err.toList.map .error ∧
      Tiles it.offset.toNat is it'.offset.toNat ∧ it'.offset.toNat ≤ it.code.length ∧
      match err with
      | none => it'.offset.toNat = it.code.length
      | some e => it'.offset.toNat < it.code.length ∧ decodeAt it.code it'.offset = .error e := by
  induction h with
  | done hnext =>
      rcases hit.next_cases with ⟨hend, h⟩ | ⟨i, _, h⟩ | ⟨e, _, _, h⟩
      · rw [hnext] at h
        cases h
        exact ⟨[], none, rfl, rfl, hit.offset_le, hend⟩
      · rw [hnext] at h
        cases h
      · rw [hnext] at h
        cases h
  | item hnext tail ih =>
      rcases hit.next_cases with ⟨_, h⟩ | ⟨i, hdecode, h⟩ | ⟨e, hlt, hdecode, h⟩
      · rw [hnext] at h
        cases h
      · rw [hnext] at h
        cases h
        obtain ⟨hoffset, hsize, _⟩ := decodeAt_bounds hit.short hdecode
        obtain ⟨is, err, rfl, htiles, hle, herr⟩ := ih (hit.advance hdecode)
        simp only [decodeAt_nextOffset hit.short hdecode] at htiles
        exact ⟨i :: is, err, rfl, ⟨by rw [hoffset], hsize, htiles⟩, hle, herr⟩
      · rw [hnext] at h
        cases h
        -- a done iterator yields nothing more
        obtain ⟨rfl, rfl⟩ := tail.unique (.done (next_of_end (.inl rfl)))
        exact ⟨[], some e, rfl, rfl, hit.offset_le, hlt, hdecode⟩

/-- A call decodes at the offset of the iterator, and keeps the code. -/
theorem next_decodes {item : Result Instruction} (h : it.next = (some item, it')) :
    decodeAt it.code it.offset = item ∧ it'.code = it.code := by
  simp only [next] at h
  split at h
  · cases h
  · split at h
    · rename_i hdecode
      split at h
      · cases h
        exact ⟨hdecode, rfl⟩
      · cases h
        exact ⟨hdecode, rfl⟩
    · rename_i hdecode
      cases h
      exact ⟨hdecode, rfl⟩

/-- Every instruction of a run was decoded from the code. -/
theorem ok_of_yields {items : List (Result Instruction)} (h : Yields next it items it') :
    ∀ i, .ok i ∈ items → ∃ offset, decodeAt it.code offset = .ok i := by
  induction h with
  | done =>
      intro i hi
      cases hi
  | item hnext tail ih =>
      obtain ⟨hdecode, hcode⟩ := next_decodes hnext
      intro i hi
      rcases List.mem_cons.mp hi with rfl | hi
      · exact ⟨_, hdecode⟩
      · rw [← hcode]
        exact ih i hi

/-- A reached iterator is done or live. -/
theorem live_of_reached {code : List UInt8} (hlen : code.length < 2 ^ 32)
    (h : Reached next (new code) it) : it.done = true ∨ it.Live := by
  refine Reached.invariant (I := fun it => it.done = true ∨ it.Live) (.inr (.new hlen)) ?_ h
  rintro it (hdone | hit)
  · rw [next_of_end (.inl hdone)]
    exact .inl hdone
  · rcases hit.next_cases with ⟨_, hnext⟩ | ⟨i, hdecode, hnext⟩ | ⟨e, _, _, hnext⟩
    · rw [hnext]
      exact .inr hit
    · rw [hnext]
      exact .inr (hit.advance hdecode)
    · rw [hnext]
      exact .inl rfl

/-- What the items of a run over `code` are that ends at offset `stop`: instructions that
tile the code from 0 to there, all of it unless an error comes last, which stands there. -/
def RunTiles (code : List UInt8) (items : List (Result Instruction)) (stop : UInt32) : Prop :=
  ∃ (is : List Instruction) (err : Option Error),
    items = is.map .ok ++ err.toList.map .error ∧
    Tiles 0 is stop.toNat ∧
    (∀ i ∈ is, i.offset.toNat + i.size.toNat ≤ code.length) ∧
    match err with
    | none => (is.map fun i => i.size.toNat).sum = code.length
    | some e => stop.toNat < code.length ∧ decodeAt code stop = .error e ∧
        ∃ o, e.offset = some o ∧ stop.toNat ≤ o ∧ o ≤ code.length

theorem runTiles_of_yields {code : List UInt8} {items : List (Result Instruction)}
    {last : InstructionIter} (hlen : code.length < 2 ^ 32)
    (h : Yields next (new code) items last) : RunTiles code items last.offset := by
  obtain ⟨is, err, hitems, htiles, hle, herr⟩ := tiles_of_yields h (.new hlen)
  refine ⟨is, err, hitems, htiles, fun i hi => Nat.le_trans (htiles.end_le i hi) hle, ?_⟩
  cases err with
  | none =>
      have hsum : 0 + (is.map fun i => i.size.toNat).sum = last.offset.toNat :=
        htiles.sum_sizes
      rw [Nat.zero_add] at hsum
      exact hsum.trans herr
  | some e => exact ⟨herr.1, herr.2, decodeAt_error hlen herr.1 herr.2⟩

/-- The run over a code is finite; its instructions tile the code from 0, an error can
only come last and stands where they end, without one they are the whole code, and the
iterator never stops short. -/
theorem run_tiles (code : List UInt8) (hlen : code.length < 2 ^ 32) :
    (∃ items last, Yields next (new code) items last) ∧
    (∀ items last, Yields next (new code) items last → RunTiles code items last.offset) ∧
    (∀ it, Reached next (new code) it → ¬ it.StopsShort) := by
  refine ⟨exists_yields left (fun _ _ _ => left_next) _, fun _ _ => runTiles_of_yields hlen, ?_⟩
  intro it h
  rcases live_of_reached hlen h with hdone | hit
  · rintro ⟨hnot, _⟩
    rw [hdone] at hnot
    cases hnot
  · exact hit.not_stopsShort

/-- `nop`, then a byte that is no opcode: one instruction, and the error at offset 1. -/
theorem run_tiles_unknownOpcode : RunTiles [0x00, 0xFF, 0x00]
    [.ok ⟨0, 1, .nop, .none⟩, .error ⟨.unknownOpcode, some 1, cilContext⟩] 1 :=
  (run_tiles [0x00, 0xFF, 0x00] (by decide)).2.1 _ ⟨[0x00, 0xFF, 0x00], 1, true⟩
    (.item rfl (.item rfl (.done rfl)))

end InstructionIter

end Cildec
