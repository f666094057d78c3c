import Cildec.Il.Blocks

/-!
# Code that is cut off (`src/il/mod.rs`)

An instruction is told by its own bytes and needs all of them. So a code that ends too early is
disassembled like the whole one, up to the instruction that the cut goes through.

* `decodeAt_take`: which instructions are decoded from the front of a code;
* `run_truncated`: the run over it.
-/

namespace Cildec

open Wire

/-- The instruction at an offset is the one that is written there. -/
theorem decodeAt_ok_iff {code : List UInt8} {offset : UInt32} {i : Instruction}
    (hlen : code.length < 2 ^ 32) :
    decodeAt code offset = .ok i ↔
      i.offset = offset ∧ (code.drop offset.toNat).take i.size.toNat = i.enc ∧ i.Encodable := by
  constructor
  · exact enc_of_decodeAt hlen
  · rintro ⟨rfl, hbytes, hi⟩
    have hpos := i.enc_pos
    have hsize := congrArg List.length hbytes
    rw [List.length_take, List.length_drop] at hsize
    have hplace : i.offset.toNat = (code.take i.offset.toNat).length := by
      rw [List.length_take]
      omega
    have hsplit : code.take i.offset.toNat ++
        (i.enc ++ (code.drop i.offset.toNat).drop i.size.toNat) = code := by
      rw [← hbytes, List.take_append_drop, List.take_append_drop]
    have hdecode := decodeAt_enc (s := (code.drop i.offset.toNat).drop i.size.toNat)
      (by rwa [hsplit]) hplace hi
    rwa [hsplit] at hdecode

/-- From the front of a code are decoded the instructions that end by the cut. -/
theorem decodeAt_take {code : List UInt8} {offset : UInt32} {i : Instruction} {n : Nat}
    (hlen : code.length < 2 ^ 32) (hn : n ≤ code.length) :
    decodeAt (code.take n) offset = .ok i ↔
      decodeAt code offset = .ok i ∧ offset.toNat + i.size.toNat ≤ n := by
  have hlength : (code.take n).length = n := List.length_take_of_le hn
  have htake (hend : offset.toNat + i.size.toNat ≤ n) :
      ((code.take n).drop offset.toNat).take i.size.toNat =
        (code.drop offset.toNat).take i.size.toNat := by
    rw [List.drop_take, List.take_take, Nat.min_eq_left (by omega)]
  constructor
  · intro h
    obtain ⟨_, _, hend⟩ := decodeAt_bounds (by omega) h
    rw [hlength] at hend
    rw [decodeAt_ok_iff (by omega), htake hend] at h
    exact ⟨(decodeAt_ok_iff hlen).mpr h, hend⟩
  · rintro ⟨h, hend⟩
    rw [decodeAt_ok_iff hlen, ← htake hend] at h
    exact (decodeAt_ok_iff (by omega)).mpr h

namespace InstructionIter

/-- What is disassembled behind `kept` in the whole code, when the run over its front stops
there: instructions that end behind the cut. -/
theorem cut_of_yields {code : List UInt8} {n : Nat} {stop : UInt32} {cut : List Instruction}
    {rest : List (Result Instruction)} {last : InstructionIter} (hlen : code.length < 2 ^ 32)
    (hn : n ≤ code.length)
    (h : Yields next ⟨code, stop, false⟩ (cut.map .ok ++ rest) last)
    (htiles : ∃ mid, Tiles stop.toNat cut mid)
    (hend : ∀ i, decodeAt (code.take n) stop ≠ .ok i) :
    ∀ i ∈ cut, n < i.offset.toNat + i.size.toNat := by
  cases cut with
  | nil =>
      intro i hi
      cases hi
  | cons j cut =>
      obtain ⟨mid, hoffset, hsize, htail⟩ := htiles
      have hdecode : decodeAt code stop = .ok j := by
        cases h with
        | item hnext _ => exact (next_decodes hnext).1
      have hfirst : n < stop.toNat + j.size.toNat := by
        by_contra hle
        exact hend j ((decodeAt_take hlen hn).mpr ⟨hdecode, by omega⟩)
      intro i hi
      rcases List.mem_cons.mp hi with rfl | hi
      · omega
      · -- what follows starts behind the first one
        have hstart := htail.start_le i hi
        omega

/-- What the run over the front of a code yields is written at the front of the whole code. -/
theorem encoded_front {code : List UInt8} {n stop : Nat} {kept : List Instruction}
    {rest : List (Result Instruction)} {last : InstructionIter}
    (hlen : (code.take n).length < 2 ^ 32)
    (h : Yields next (new (code.take n)) (kept.map .ok ++ rest) last)
    (htiles : Tiles 0 kept stop) (hle : stop ≤ n) :
    encAll kept = code.take stop ∧ ∀ i ∈ kept, i.Encodable := by
  have henc (i : Instruction) (hi : i ∈ kept) :
      ((code.take n).drop i.offset.toNat).take i.size.toNat = i.enc ∧ i.Encodable := by
    obtain ⟨offset, hdecode⟩ := ok_of_yields h i
      (List.mem_append_left _ (List.mem_map_of_mem hi))
    obtain ⟨rfl, hbytes, hi⟩ := enc_of_decodeAt hlen hdecode
    exact ⟨hbytes, hi⟩
  refine ⟨?_, fun i hi => (henc i hi).2⟩
  rw [← htiles.encAll_eq fun i hi => (henc i hi).1, List.drop_zero, Nat.sub_zero,
    List.take_take, Nat.min_eq_left hle]

/-- The run over the front of a code is the run over the whole of it, up to the cut: the
instructions that end by it, then an error behind them when the cut goes through one or through
what is none. -/
theorem run_truncated {code : List UInt8} {is : List Instruction} {err : Option Error}
    {last : InstructionIter} (hlen : code.length < 2 ^ 32)
    (h : Yields next (new code) (is.map .ok ++ err.toList.map .error) last) {n : Nat}
    (hn : n ≤ code.length) :
    ∃ kept cut stop err' last', kept ++ cut = is ∧ Tiles 0 kept stop ∧ stop ≤ n ∧
      (∀ i ∈ cut, n < i.offset.toNat + i.size.toNat) ∧
      Yields next (new (code.take n)) (kept.map .ok ++ err'.toList.map .error) last' ∧
      (err' = none ↔ stop = n) ∧
      ∀ e ∈ err', ∃ o, e.offset = some o ∧ stop ≤ o ∧ o ≤ n := by
  have hlength : (code.take n).length = n := List.length_take_of_le hn
  obtain ⟨items, last', hfront⟩ := exists_yields left (fun _ _ _ => left_next) (new (code.take n))
  obtain ⟨kept, err', rfl, htiles, hle, herr⟩ := tiles_of_yields hfront (.new (by omega))
  change Tiles 0 kept last'.offset.toNat at htiles
  change last'.offset.toNat ≤ (code.take n).length at hle
  rw [hlength] at hle
  obtain ⟨hkept, henc⟩ := encoded_front (by omega) hfront htiles hle
  have hsplit : encAll kept ++ code.drop last'.offset.toNat = code := by
    rw [hkept, List.take_append_drop]
  have hkeptLength : (encAll kept).length = last'.offset.toNat := by
    rw [hkept, List.length_take_of_le (by omega)]
  obtain ⟨items, final, hbehind⟩ := exists_yields left (fun _ _ _ => left_next)
    ⟨code, last'.offset, false⟩
  obtain ⟨cut, err'', rfl, hcut, _, _⟩ := tiles_of_yields hbehind ⟨rfl, hlen, by
    show last'.offset.toNat ≤ code.length
    omega⟩
  have hwhole : Yields next (new code)
      (kept.map .ok ++ (cut.map .ok ++ err''.toList.map .error)) final := by
    have hrest : Yields next
        (at_ (encAll kept ++ code.drop last'.offset.toNat) (encAll kept).length)
        (cut.map .ok ++ err''.toList.map .error) final := by
      rw [hsplit, hkeptLength, at_, UInt32.ofNat_toNat]
      exact hbehind
    have hrun := yields_block (by rwa [hsplit]) (by rwa [hkeptLength]) henc rfl hrest
    rwa [hsplit] at hrun
  have his : kept ++ cut = is := by
    have hoks := congrArg oks (hwhole.unique h).1
    simpa using hoks
  refine ⟨kept, cut, last'.offset.toNat, err', last', his, htiles, hle, ?_, hfront, ?_, ?_⟩
  · refine cut_of_yields hlen hn hbehind ⟨_, hcut⟩ fun i hdecode => ?_
    cases err' with
    | none =>
        obtain ⟨_, hsize, hend⟩ := decodeAt_bounds (by omega) hdecode
        change last'.offset.toNat = (code.take n).length at herr
        omega
    | some e =>
        obtain ⟨_, herror⟩ := herr
        change decodeAt (code.take n) last'.offset = .error e at herror
        rw [hdecode] at herror
        cases herror
  · cases err' with
    | none => exact iff_of_true rfl (herr.trans hlength)
    | some e =>
        have hlt : last'.offset.toNat < (code.take n).length := herr.1
        exact iff_of_false (by simp) (by omega)
  · rintro e rfl
    obtain ⟨hlt, herror⟩ := herr
    obtain ⟨o, ho, hlo, hhi⟩ := decodeAt_error (by rw [new, hlength]; omega) hlt herror
    exact ⟨o, ho, hlo, by rw [← hlength]; exact hhi⟩

/-- `nop; ldc.i4 7`, cut off in the constant: the `nop` is left. -/
theorem run_truncated_constant : ∃ kept cut stop err' last',
    kept ++ cut = [⟨0, 1, .nop, .none⟩, ⟨1, 5, .ldcI4, .i32 7⟩] ∧ Tiles 0 kept stop ∧ stop ≤ 3 ∧
      (∀ i ∈ cut, 3 < i.offset.toNat + i.size.toNat) ∧
      Yields next (new [0x00, 0x20, 0x07]) (kept.map .ok ++ err'.toList.map .error) last' ∧
      (err' = none ↔ stop = 3) ∧
      ∀ e ∈ err', ∃ o, e.offset = some o ∧ stop ≤ o ∧ o ≤ 3 :=
  @run_truncated [0x00, 0x20, 0x07, 0x00, 0x00, 0x00]
    [⟨0, 1, .nop, .none⟩, ⟨1, 5, .ldcI4, .i32 7⟩] none _ (by decide)
    (.item rfl (.item rfl (.done rfl))) 3 (by decide)

end InstructionIter

end Cildec
