import Cildec.Il.Canonical
import Cildec.Il.Iter
import Cildec.Tables.Moved

/-!
# Blocks of code (`src/il/mod.rs`)

A branch is encoded as a distance, so a block of code means the same wherever it is put; its
decoded targets are offsets and move with it.

* `decodeAt_prepend`: what is decoded behind `n` more bytes is what was decoded, `n` further on;
* `run_exact`: a list of instructions is the run over a code exactly when it tiles the code with
  its encodings;
* `run_append`: the run over two blocks is the run over the first, then that over the second,
  moved behind it.
-/

namespace Cildec

open Wire

/-- The branch targets, for the operand kinds that carry them. -/
def Operand.branchTargets : Operand → List UInt32
  | .branchTarget t => [t]
  | .switch targets => targets
  | _ => []

/-! ## Moving code -/

/-- The operand with its targets `k` further on. -/
def Operand.moved (k : UInt32) : Operand → Operand
  | .branchTarget t => .branchTarget (t + k)
  | .switch targets => .switch (targets.map (· + k))
  | operand => operand

/-- The instruction `k` further on. -/
def Instruction.moved (k : UInt32) (i : Instruction) : Instruction :=
  { i with offset := i.offset + k, operand := i.operand.moved k }

theorem Operand.branchTargets_moved (k : UInt32) (operand : Operand) :
    (operand.moved k).branchTargets = operand.branchTargets.map (· + k) := by
  cases operand <;> rfl

theorem Operand.token_moved (k : UInt32) (operand : Operand) :
    (operand.moved k).token = operand.token := by
  cases operand <;> rfl

theorem impliedOperand_moved (k : UInt32) (opcode : OpCode) :
    (impliedOperand opcode).moved k = impliedOperand opcode := by
  unfold impliedOperand
  split <;> rfl

/-- Within a `usize` an error moves by the whole distance. -/
theorem Error.moved_new {b offset : Nat} (kind : ErrorKind) (context : String)
    (hmax : offset + b ≤ usizeMax) :
    (Error.new kind offset context).moved b = Error.new kind (offset + b) context := by
  show Error.mk kind (some (min (offset + b) usizeMax)) context = _
  rw [Nat.min_eq_left hmax]
  rfl

theorem Error.moved_rebase {b start : Nat} (e : Error) (hmax : start + b ≤ usizeMax) :
    (e.rebase start).moved b = e.rebase (start + b) := by
  unfold Error.rebase Error.moved
  cases e.offset with
  | none =>
      show Error.mk e.kind (some (min (start + b) usizeMax)) e.context = _
      rw [Nat.min_eq_left hmax]
  | some o =>
      show Error.mk e.kind (some (satAdd (satAdd o start) b)) e.context =
        Error.mk e.kind (some (satAdd o (start + b))) e.context
      congr 2
      unfold satAdd
      omega

section Transports

variable {b : Nat} {k : UInt32}

namespace Reader

theorem transports_skip (n : Nat) : Transports (moved b) (Error.moved b) id (skip n) (skip n) :=
  Transports.get.bind fun r _ _ _ => transports_seek (r.pos + n)

theorem transports_i8 : Transports (moved b) (Error.moved b) id i8 i8 :=
  transports_u8.bind fun _ _ _ _ => Transports.pure _

theorem transports_i32 : Transports (moved b) (Error.moved b) id i32 i32 :=
  transports_u32.bind fun _ _ _ _ => Transports.pure _

theorem transports_i64 : Transports (moved b) (Error.moved b) id i64 i64 :=
  transports_u64.bind fun _ _ _ _ => Transports.pure _

end Reader

theorem transports_nextFrom (offset : UInt32) :
    Transports (Reader.moved b) (Error.moved b) (· + k) (nextFrom offset)
      (nextFrom (offset + k)) := by
  refine Transports.get.bind fun r _ _ _ => ?_
  have hnext : offset + k + UInt32.ofNat (r.moved b).position =
      offset + UInt32.ofNat r.position + k := by
    rw [UInt32.add_assoc, UInt32.add_comm k, ← UInt32.add_assoc]
    rfl
  rw [hnext]
  exact Transports.pure (offset + UInt32.ofNat r.position)

/-- A target that is measured from the next instruction moves with it. -/
theorem transports_target {p : Read α} (offset : UInt32) (g : UInt32 → α → Operand)
    (hp : Transports (Reader.moved b) (Error.moved b) id p p)
    (hg : ∀ next delta, g (next + k) delta = (g next delta).moved k) :
    Transports (Reader.moved b) (Error.moved b) (Operand.moved k)
      (do let delta ← p; let next ← nextFrom offset; return g next delta)
      (do let delta ← p; let next ← nextFrom (offset + k); return g next delta) := by
  refine hp.bind fun delta _ _ _ => (transports_nextFrom offset).bind fun next _ _ _ => ?_
  show Transports _ _ _ _ (pure (g (next + k) delta))
  rw [hg]
  exact Transports.pure (g next delta)

theorem moved_target (next delta : UInt32) :
    Operand.branchTarget (next + k + delta) = (Operand.branchTarget (next + delta)).moved k := by
  show Operand.branchTarget _ = Operand.branchTarget (next + delta + k)
  rw [UInt32.add_assoc, UInt32.add_comm k, ← UInt32.add_assoc]

theorem transports_switch {offset : UInt32} (hoffset : (offset + k).toNat = offset.toNat + b)
    (hmax : offset.toNat + b ≤ usizeMax) :
    Transports (Reader.moved b) (Error.moved b) (Operand.moved k) (decodeSwitch offset)
      (decodeSwitch (offset + k)) := by
  refine Reader.transports_u32.bind fun count _ _ _ => Transports.get.bind fun r _ _ _ => ?_
  refine Transports.ite (fun _ => ?_) fun _ => ?_
  · rw [hoffset, ← Error.moved_new .truncated cilContext hmax]
    exact Transports.throw _
  · refine transports_target offset
      (fun next deltas => .switch (deltas.map fun d => next + d.toUInt32))
      (Reader.transports_i32.repeatM _) fun next deltas => ?_
    show Operand.switch _ = Operand.switch ((deltas.map _).map _)
    rw [List.map_map]
    congr 2
    funext d
    exact (Operand.branchTarget.inj (moved_target next d.toUInt32))

theorem transports_operand {offset : UInt32} (opcode : OpCode)
    (hoffset : (offset + k).toNat = offset.toNat + b) (hmax : offset.toNat + b ≤ usizeMax) :
    Transports (Reader.moved b) (Error.moved b) (Operand.moved k) (decodeOperand offset opcode)
      (decodeOperand (offset + k) opcode) := by
  have htoken (g : UInt32 → Operand) (hg : ∀ token, (g token).moved k = g token) :
      Transports (Reader.moved b) (Error.moved b) (Operand.moved k)
        (do let token ← Reader.u32; return g token)
        (do let token ← Reader.u32; return g token) := by
    refine Reader.transports_u32.bind fun token _ _ _ => ?_
    have hpure := Transports.pure (f := Reader.moved b) (g := Error.moved b) (h := Operand.moved k)
      (g token)
    rw [hg] at hpure
    exact hpure
  unfold decodeOperand
  cases opcode.info.operand with
  | inlineNone =>
      have hpure := Transports.pure (f := Reader.moved b) (g := Error.moved b)
        (h := Operand.moved k) (impliedOperand opcode)
      rw [impliedOperand_moved] at hpure
      exact hpure
  | shortInlineI =>
      refine Reader.transports_i8.bind fun value _ _ _ => ?_
      exact Transports.ite (fun _ => Transports.pure _) fun _ => Transports.pure _
  | inlineI => exact Reader.transports_i32.bind fun _ _ _ _ => Transports.pure _
  | inlineI8 => exact Reader.transports_i64.bind fun _ _ _ _ => Transports.pure _
  | shortInlineR => exact Reader.transports_u32.bind fun _ _ _ _ => Transports.pure _
  | inlineR => exact Reader.transports_u64.bind fun _ _ _ _ => Transports.pure _
  | shortInlineVar => exact Reader.transports_u8.bind fun _ _ _ _ => Transports.pure _
  | inlineVar => exact Reader.transports_u16.bind fun _ _ _ _ => Transports.pure _
  | shortInlineBrTarget =>
      exact transports_target offset
        (fun next (d : Int8) => .branchTarget (next + d.toInt32.toUInt32))
        Reader.transports_i8 fun next d => moved_target next d.toInt32.toUInt32
  | inlineBrTarget =>
      exact transports_target offset (fun next (d : Int32) => .branchTarget (next + d.toUInt32))
        Reader.transports_i32 fun next d => moved_target next d.toUInt32
  | inlineSwitch => exact transports_switch hoffset hmax
  | _ => exact htoken _ fun _ => rfl

theorem transports_rest {offset : UInt32} (opcode : OpCode) (opcodeSize : Nat)
    (hoffset : (offset + k).toNat = offset.toNat + b) (hmax : offset.toNat + b ≤ usizeMax) :
    Transports (Reader.moved b) (Error.moved b) (fun x => (x.1.moved k, x.2))
      (decodeRest offset opcode opcodeSize) (decodeRest (offset + k) opcode opcodeSize) := by
  refine (Reader.transports_skip opcodeSize).bind fun _ _ _ _ => ?_
  refine (transports_operand opcode hoffset hmax).bind fun operand _ _ _ => ?_
  refine Transports.get.bind fun r _ _ _ => ?_
  exact Transports.pure (operand, UInt32.ofNat r.position)

end Transports

/-- What is decoded behind `pre` is what was decoded without it, that much further on, the
errors included. -/
theorem decodeAt_prepend (pre code : List UInt8) {k offset : UInt32} (hk : k.toNat = pre.length)
    (hfits : offset.toNat + pre.length < 2 ^ 32) :
    decodeAt (pre ++ code) (offset + k) =
      carry (Error.moved pre.length) (Instruction.moved k) (decodeAt code offset) := by
  have hoffset : (offset + k).toNat = offset.toNat + pre.length := by
    rw [UInt32.toNat_add, hk]
    exact Nat.mod_eq_of_lt hfits
  have hmax : offset.toNat + pre.length ≤ usizeMax := by
    rw [usizeMax]
    omega
  have hslice : slice? (pre ++ code) (offset + k).toNat (pre ++ code).length =
      slice? code offset.toNat code.length := by
    have hdrop : (pre ++ code).drop (offset.toNat + pre.length) = code.drop offset.toNat := by
      rw [Nat.add_comm, ← List.drop_drop, List.drop_left]
    have hlen : (pre ++ code).length - (offset.toNat + pre.length) =
        code.length - offset.toNat := by
      rw [List.length_append]
      omega
    have hiff : offset.toNat + pre.length ≤ (pre ++ code).length ↔ offset.toNat ≤ code.length := by
      rw [List.length_append]
      omega
    rw [hoffset]
    simp only [slice?, hdrop, hlen, hiff, Nat.le_refl, and_true]
  simp only [decodeAt, hslice]
  cases slice? code offset.toNat code.length with
  | none =>
      rw [hoffset, ← Error.moved_new .outOfRange cilContext hmax]
      rfl
  | some rest =>
      cases hopcode : OpCode.fromBytes rest with
      | error e =>
          simp only [hopcode, carry, hoffset, Error.moved_rebase e hmax]
      | ok x =>
          obtain ⟨opcode, opcodeSize⟩ := x
          have hreader : Reader.new rest (offset + k).toNat cilContext =
              (Reader.new rest offset.toNat cilContext).moved pre.length := by
            rw [hoffset]
            show _ = Reader.new rest (min (offset.toNat + pre.length) usizeMax) cilContext
            rw [Nat.min_eq_left hmax]
          have hrun := transports_rest opcode opcodeSize hoffset hmax
            (Reader.new rest offset.toNat cilContext)
          simp only [hopcode, hreader, hrun]
          cases (decodeRest offset opcode opcodeSize).run
              (Reader.new rest offset.toNat cilContext) with
          | error e r => rfl
          | ok x r => rfl

/-! ## Whole runs -/

/-- The bytes of a list of instructions. -/
def encAll (is : List Instruction) : List UInt8 := is.flatMap Instruction.enc

/-- Instructions that tile a range are encoded in it. -/
theorem Tiles.encAll_eq {code : List UInt8} {start stop : Nat} {is : List Instruction}
    (h : Tiles start is stop)
    (henc : ∀ i ∈ is, (code.drop i.offset.toNat).take i.size.toNat = i.enc) :
    (code.drop start).take (stop - start) = encAll is := by
  induction is generalizing start with
  | nil =>
      obtain rfl : start = stop := h
      rw [Nat.sub_self, List.take_zero]
      rfl
  | cons i is ih =>
      obtain ⟨hoffset, _, htail⟩ := h
      have hsum := htail.sum_sizes
      have hhead := henc i List.mem_cons_self
      rw [hoffset] at hhead
      have hrest := ih htail fun j hj => henc j (List.mem_cons_of_mem _ hj)
      have hsplit : stop - start = i.size.toNat + (stop - (start + i.size.toNat)) := by omega
      rw [hsplit, List.take_add, hhead, List.drop_drop, hrest]
      rfl

namespace InstructionIter

/-- The iterator over a code at an offset. -/
def at_ (code : List UInt8) (offset : Nat) : InstructionIter := ⟨code, UInt32.ofNat offset, false⟩

theorem at_offset {code : List UInt8} {offset : Nat} (h : offset < 2 ^ 32) :
    (at_ code offset).offset.toNat = offset := UInt32.toNat_ofNat_of_lt' h

/-- Instructions that are encoded where the iterator stands come before the rest of its run. -/
theorem yields_encoded {is : List Instruction} {p post : List UInt8} {stop : Nat}
    {items : List (Result Instruction)} {last : InstructionIter}
    (hlen : (p ++ (encAll is ++ post)).length < 2 ^ 32) (htiles : Tiles p.length is stop)
    (henc : ∀ i ∈ is, i.Encodable)
    (h : Yields next (at_ (p ++ (encAll is ++ post)) (p.length + (encAll is).length)) items
      last) :
    Yields next (at_ (p ++ (encAll is ++ post)) p.length) (is.map .ok ++ items) last := by
  induction is generalizing p with
  | nil => exact h
  | cons i is ih =>
      obtain ⟨hoffset, _, htail⟩ := htiles
      have hi := henc i List.mem_cons_self
      have hcode : p ++ (encAll (i :: is) ++ post) = (p ++ i.enc) ++ (encAll is ++ post) := by
        simp only [encAll, List.flatMap_cons, List.append_assoc]
      have hplace : p.length + (encAll (i :: is)).length =
          (p ++ i.enc).length + (encAll is).length := by
        simp only [encAll, List.flatMap_cons, List.length_append, Nat.add_assoc]
      rw [hcode] at hlen h ⊢
      rw [hplace] at h
      have hsize := hi.size_eq
      have hstart : p.length + i.size.toNat = (p ++ i.enc).length := by
        rw [List.length_append, hsize]
      rw [hstart] at htail
      have hrest := ih hlen htail (fun j hj => henc j (List.mem_cons_of_mem _ hj)) h
      have hpre : p.length < 2 ^ 32 := by
        simp only [List.length_append] at hlen
        omega
      have hlive : (at_ ((p ++ i.enc) ++ (encAll is ++ post)) p.length).Live := by
        refine ⟨rfl, hlen, ?_⟩
        rw [at_offset hpre]
        show p.length ≤ (p ++ i.enc ++ (encAll is ++ post)).length
        simp only [List.length_append]
        omega
      have hpos := i.enc_pos
      have hdecode : decodeAt ((p ++ i.enc) ++ (encAll is ++ post)) (UInt32.ofNat p.length) =
          .ok i := by
        have hi_offset : UInt32.ofNat p.length = i.offset := by
          rw [← hoffset, UInt32.ofNat_toNat]
        rw [hi_offset, List.append_assoc]
        rw [List.append_assoc] at hlen
        exact decodeAt_enc hlen hoffset hi
      have hnext := hlive.next_of_ok (by
        rw [at_offset hpre]
        show p.length < (p ++ i.enc ++ (encAll is ++ post)).length
        simp only [List.length_append]
        omega) hdecode
      have hstate : UInt32.ofNat (p ++ i.enc).length = i.nextOffset := by
        rw [Instruction.nextOffset, ← hstart, UInt32.ofNat_add, UInt32.ofNat_toNat, ← hoffset,
          UInt32.ofNat_toNat]
      refine .item hnext ?_
      rw [← hstate]
      exact hrest

/-- The instructions of a run without an error are the code. -/
theorem encoded_of_yields {code : List UInt8} {is : List Instruction} {last : InstructionIter}
    (hlen : code.length < 2 ^ 32) (h : Yields next (new code) (is.map .ok) last) :
    Tiles 0 is code.length ∧ (∀ i ∈ is, i.Encodable) ∧ encAll is = code := by
  obtain ⟨is', err, hitems, htiles, hle, herr⟩ := tiles_of_yields h (.new hlen)
  have henc (i : Instruction) (hi : i ∈ is) :
      (code.drop i.offset.toNat).take i.size.toNat = i.enc ∧ i.Encodable := by
    obtain ⟨offset, hdecode⟩ := ok_of_yields h i (List.mem_map_of_mem hi)
    obtain ⟨hoffset, hbytes, hi⟩ := enc_of_decodeAt hlen hdecode
    rw [hoffset]
    exact ⟨hbytes, hi⟩
  cases err with
  | some e =>
      have hall : AllOk (is.map (.ok : Instruction → Result Instruction)) := allOk_map_ok is
      rw [hitems] at hall
      simp at hall
  | none =>
      have his : is = is' := by
        have hoks := congrArg oks hitems
        simpa using hoks
      subst his
      have hcode : Tiles 0 is code.length := by
        have hend : last.offset.toNat = code.length := herr
        rw [← hend]
        exact htiles
      have hall := hcode.encAll_eq fun i hi => (henc i hi).1
      rw [List.drop_zero, Nat.sub_zero, List.take_length] at hall
      exact ⟨hcode, fun i hi => (henc i hi).2, hall.symm⟩

/-- The run over written instructions is these, and then what is behind them. -/
theorem yields_block {is : List Instruction} {code post : List UInt8}
    {items : List (Result Instruction)} {last : InstructionIter}
    (hlen : (code ++ post).length < 2 ^ 32) (htiles : Tiles 0 is code.length)
    (henc : ∀ i ∈ is, i.Encodable) (hcode : encAll is = code)
    (h : Yields next (at_ (code ++ post) code.length) items last) :
    Yields next (new (code ++ post)) (is.map .ok ++ items) last := by
  subst hcode
  refine yields_encoded (p := []) hlen htiles henc ?_
  rw [List.nil_append, List.length_nil, Nat.zero_add]
  exact h

/-- What was assembled is disassembled to its end. -/
theorem exists_yields_encoded {is : List Instruction} {code : List UInt8}
    (hlen : code.length < 2 ^ 32) (htiles : Tiles 0 is code.length)
    (henc : ∀ i ∈ is, i.Encodable) (hcode : encAll is = code) :
    ∃ last, Yields next (new code) (is.map .ok) last := by
  have hend : next (at_ (code ++ []) code.length) = (none, at_ (code ++ []) code.length) := by
    refine next_of_end (.inr ?_)
    rw [at_offset hlen, List.append_nil]
    exact Nat.le_refl _
  have hrun := yields_block (by rwa [List.append_nil]) htiles henc hcode (.done hend)
  rw [List.append_nil, List.append_nil] at hrun
  exact ⟨_, hrun⟩

/-- A list of instructions is the whole run over a code exactly when they stand one after the
other and are written there: what is disassembled without an error is what was assembled. -/
theorem run_exact {code : List UInt8} (hlen : code.length < 2 ^ 32) (is : List Instruction) :
    (∃ last, Yields next (new code) (is.map .ok) last) ↔
      Tiles 0 is code.length ∧ (∀ i ∈ is, i.Encodable) ∧ encAll is = code := by
  constructor
  · rintro ⟨last, h⟩
    exact encoded_of_yields hlen h
  · rintro ⟨htiles, henc, hcode⟩
    exact exists_yields_encoded hlen htiles henc hcode

/-- `ldc.i4.s -2; pop`, disassembled from its three bytes. -/
theorem run_exact_constant : encAll [⟨0, 2, .ldcI4S, .i32 (-2)⟩, ⟨2, 1, .pop, .none⟩] =
    [0x1F, 0xFE, 0x26] :=
  ((run_exact (by decide) [⟨0, 2, .ldcI4S, .i32 (-2)⟩, ⟨2, 1, .pop, .none⟩]).mp
    ⟨_, .item rfl (.item rfl (.done rfl))⟩).2.2

/-! ## One block behind another -/

/-- The iterator behind `pre` more bytes. -/
def behind (pre : List UInt8) (k : UInt32) (it : InstructionIter) : InstructionIter :=
  ⟨pre ++ it.code, it.offset + k, it.done⟩

/-- A call behind `pre` more bytes does what it did without them, that much further on. -/
theorem next_behind {pre : List UInt8} {k : UInt32} {it : InstructionIter}
    (hk : k.toNat = pre.length) (hlen : pre.length + it.code.length < 2 ^ 32)
    (hit : it.done = true ∨ it.Live) :
    (behind pre k it).next =
      (it.next.1.map (carry (Error.moved pre.length) (Instruction.moved k)),
        behind pre k it.next.2) := by
  rcases hit with hdone | hit
  · have hbehind : (behind pre k it).next = (none, behind pre k it) := next_of_end (.inl hdone)
    rw [next_of_end (.inl hdone), hbehind]
    rfl
  have hle := hit.offset_le
  have hoffset : (behind pre k it).offset.toNat = it.offset.toNat + pre.length := by
    show (it.offset + k).toNat = _
    rw [UInt32.toNat_add, hk]
    exact Nat.mod_eq_of_lt (by omega)
  have hlength : (behind pre k it).code.length = pre.length + it.code.length :=
    List.length_append
  have hlive : (behind pre k it).Live := ⟨hit.not_done, by omega, by omega⟩
  have hdecode : decodeAt (behind pre k it).code (behind pre k it).offset =
      carry (Error.moved pre.length) (Instruction.moved k) (decodeAt it.code it.offset) :=
    decodeAt_prepend pre it.code hk (by omega)
  rcases hit.next_cases with ⟨hend, hnext⟩ | ⟨i, hok, hnext⟩ | ⟨e, hlt, herror, hnext⟩
  · rw [hnext, next_of_end (.inr (by omega))]
    rfl
  · rw [hok] at hdecode
    obtain ⟨_, hsize, hend⟩ := decodeAt_bounds hit.short hok
    rw [hnext, hlive.next_of_ok (by omega) hdecode]
    show _ = (some _, behind pre k ⟨it.code, i.nextOffset, it.done⟩)
    have hmoved : (i.moved k).nextOffset = i.nextOffset + k := by
      show i.offset + k + i.size = i.offset + i.size + k
      rw [UInt32.add_assoc, UInt32.add_comm k, ← UInt32.add_assoc]
    show (some (Except.ok (i.moved k)), (⟨_, (i.moved k).nextOffset, _⟩ : InstructionIter)) = _
    rw [hmoved]
    rfl
  · rw [herror] at hdecode
    rw [hnext, hlive.next_of_error (by omega) hdecode]
    rfl

/-- The run over a block is the same behind more bytes, that much further on. -/
theorem yields_behind {pre code : List UInt8} {k : UInt32} {items : List (Result Instruction)}
    {last : InstructionIter} (hk : k.toNat = pre.length)
    (hlen : pre.length + code.length < 2 ^ 32) (h : Yields next (new code) items last) :
    Yields next (behind pre k (new code))
      (items.map (carry (Error.moved pre.length) (Instruction.moved k))) (behind pre k last) := by
  refine Yields.map_of_inv (I := fun it => it.code = code ∧ (it.done = true ∨ it.Live)) ?_ ?_ h
    ⟨rfl, .inr (.new (by omega))⟩
  · rintro it ⟨rfl, hdone | hit⟩
    · rw [next_of_end (.inl hdone)]
      exact ⟨rfl, .inl hdone⟩
    · rcases hit.next_cases with ⟨_, hnext⟩ | ⟨i, hok, hnext⟩ | ⟨e, _, _, hnext⟩
      · rw [hnext]
        exact ⟨rfl, .inr hit⟩
      · rw [hnext]
        exact ⟨rfl, .inr (hit.advance hok)⟩
      · rw [hnext]
        exact ⟨rfl, .inl rfl⟩
  · rintro it ⟨rfl, hit⟩
    exact next_behind hk hlen hit

/-- The run over two blocks is the run over the first, when it has no error, and then the run
over the second with everything that names an offset moved behind the first: the offsets of its
instructions, its branch targets and its error. -/
theorem run_append {block code : List UInt8} {is : List Instruction}
    {items : List (Result Instruction)} {last last' : InstructionIter}
    (hlen : block.length + code.length < 2 ^ 32)
    (hblock : Yields next (new block) (is.map .ok) last)
    (hcode : Yields next (new code) items last') :
    ∃ final, Yields next (new (block ++ code))
      (is.map .ok ++ items.map (carry (Error.moved block.length)
        (Instruction.moved (UInt32.ofNat block.length)))) final := by
  have hshort : block.length < 2 ^ 32 := by omega
  have hk : (UInt32.ofNat block.length).toNat = block.length := UInt32.toNat_ofNat_of_lt' hshort
  obtain ⟨htiles, henc, hbytes⟩ := encoded_of_yields hshort hblock
  have hstart : behind block (UInt32.ofNat block.length) (new code) =
      at_ (block ++ code) block.length := by
    show (⟨_, 0 + _, _⟩ : InstructionIter) = ⟨_, _, _⟩
    rw [UInt32.zero_add]
    rfl
  have hrest := yields_behind hk hlen hcode
  rw [hstart] at hrest
  exact ⟨_, yields_block (by rwa [List.length_append]) htiles henc hbytes hrest⟩

/-- A branch to itself behind a `nop`: it branches to where it now is, and the byte behind it
that is no opcode is reported there. -/
theorem run_append_loop : ∃ final, Yields next (new ([0x00] ++ [0x2B, 0xFE, 0xFF]))
    [.ok ⟨0, 1, .nop, .none⟩, .ok ⟨1, 2, .brS, .branchTarget 1⟩,
      .error ⟨.unknownOpcode, some 3, cilContext⟩] final :=
  @run_append [0x00] [0x2B, 0xFE, 0xFF] [⟨0, 1, .nop, .none⟩]
    [.ok ⟨0, 2, .brS, .branchTarget 0⟩, .error ⟨.unknownOpcode, some 2, cilContext⟩] _ _
    (by decide) (.item rfl (.done rfl)) (.item rfl (.item rfl (.done rfl)))

end InstructionIter

end Cildec
