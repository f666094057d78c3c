import Cildec.Heaps.Entries
import Cildec.Lib.Run

/-!
# Tokens of user strings (`src/heaps.rs`, `src/token.rs`)

The iterator over the `#US` heap walks with an offset of 32 bits, of which a token keeps 24
under the table byte `0x70`. `Span.EntryFrom` names the entries of the walk by the bytes of
the heap, and `TokenNames` says when the token of one of them leads back to it.

* `UserStringsIter.mem_iff`: what a run of the iterator returns;
* `us_tokens_lead_back_iff`: when all its tokens lead back;
* `farUserString_lost`: a heap where one does not.
-/

namespace Cildec

open Wire

/-! ## Entries by their bytes -/

/-- A body behind its length stands at `offset`, in `size` bytes. -/
def Span.Holds (span : Span) (offset : Nat) (body : List UInt8) (size : Nat) : Prop :=
  ∃ pre tl, Compressed.Payload body.length pre ∧ span.data.drop offset = pre ++ (body ++ tl) ∧
    size = pre.length + body.length

/-- Which entries the accessors read. -/
theorem Span.entry_ok_iff {span : Span} {offset size : Nat} {body : List UInt8}
    {context : String} :
    span.entry offset context = .ok (body, size) ↔ span.Holds offset body size := by
  constructor
  · intro h
    obtain ⟨rest, hat, h⟩ := ok_bind_iff.mp h
    obtain ⟨⟨len, used⟩, hread, h⟩ := ok_bind_iff.mp h
    have hrest : rest = span.data.drop offset := by
      unfold Span.at_ at hat
      split at hat
      · exact (Except.ok.inj hat).symm
      · cases hat
    have hpayload : Compressed.readU32 rest = .ok (len, used) := by
      cases hr : Compressed.readU32 rest with
      | error e =>
          rw [hr] at hread
          cases hread
      | ok p =>
          rw [hr] at hread
          cases hread
          rfl
    obtain ⟨pre, tl, hsplit, hused, hpay⟩ := Compressed.readPayload_ok hpayload
    simp only at h
    split at h
    · rename_i body' hslice
      cases h
      obtain ⟨⟨_, hstop⟩, hbody⟩ := slice?_eq_some_iff.mp hslice
      have hlen := length_of_slice? hslice
      rw [Nat.add_sub_cancel_left] at hbody hlen
      rw [hsplit, ← hused, List.drop_left] at hbody
      refine ⟨pre, tl.drop len, hlen.symm ▸ hpay, ?_, by rw [hused, hlen]⟩
      rw [← hrest, hsplit, hbody, List.take_append_drop]
    · cases h
  · rintro ⟨pre, tl, hpay, hdrop, rfl⟩
    have hpos := hpay.length_pos
    have hlen := congrArg List.length hdrop
    simp only [List.length_drop, List.length_append] at hlen
    have hat : span.at_ offset context = .ok (pre ++ (body ++ tl)) := by
      rw [Span.at_, if_pos (by omega), hdrop]
    have hread : Compressed.readU32 (pre ++ (body ++ tl)) = .ok (body.length, pre.length) :=
      Compressed.readPayload_append hpay _
    simp only [Span.entry, hat, hread, Except.mapError, slice?_append, bind, Except.bind, pure,
      Except.pure]

theorem Span.Holds.end_le {span : Span} {offset size : Nat} {body : List UInt8}
    (h : span.Holds offset body size) :
    0 < size ∧ offset + size ≤ span.data.length := by
  obtain ⟨pre, tl, hpay, hdrop, rfl⟩ := h
  have hpos := hpay.length_pos
  have hlen := congrArg List.length hdrop
  simp only [List.length_drop, List.length_append] at hlen
  omega

/-- An entry that starts at `offset`, reached from `start` over the entries between. -/
inductive Span.EntryFrom (span : Span) : Nat → Nat → List UInt8 → Prop where
  | here {start size : Nat} {body : List UInt8} (h : span.Holds start body size) :
      EntryFrom span start start body
  | later {start offset size : Nat} {before body : List UInt8}
      (h : span.Holds start before size) (rest : EntryFrom span (start + size) offset body) :
      EntryFrom span start offset body

/-! ## A run of the iterator -/

/-- One call where an entry stands. -/
theorem UserStringsIter.next_of_holds {heap : UserStringsHeap} {pos size : Nat}
    {body : List UInt8} (hlen : heap.span.data.length ≤ u32Max)
    (h : heap.span.Holds pos body size) :
    UserStringsIter.next ⟨heap, pos⟩ =
      (some (userStringToken pos, splitUserString body), ⟨heap, pos + size⟩) := by
  obtain ⟨hpos, hend⟩ := h.end_le
  have hread : heap.getWithSize pos = .ok (splitUserString body, size) := by
    rw [UserStringsHeap.getWithSize, Span.entry_ok_iff.mpr h]
    rfl
  have hnext : entryNext heap.span.data.length heap.getWithSize pos =
      (some (pos, splitUserString body), pos + size) := by
    rw [entryNext, if_neg (by omega), hread]
    exact if_pos ⟨by omega, by omega⟩
  rw [UserStringsIter.next_eq, hnext]
  rfl

/-- What a call that returns an item says of the bytes at the position. -/
theorem UserStringsIter.next_some {heap : UserStringsHeap} {pos : Nat}
    {item : Nat × UserString} {it : UserStringsIter}
    (h : UserStringsIter.next ⟨heap, pos⟩ = (some item, it)) :
    ∃ body size, heap.span.Holds pos body size ∧
      item = (userStringToken pos, splitUserString body) ∧ it = ⟨heap, pos + size⟩ := by
  rw [UserStringsIter.next_eq, entryNext] at h
  by_cases hend : heap.span.data.length ≤ pos
  · rw [if_pos hend] at h
    cases h
  · rw [if_neg hend] at h
    cases hentry : heap.span.entry pos "#US" with
    | error e =>
        have hread : heap.getWithSize pos = .error e := by
          rw [UserStringsHeap.getWithSize, hentry]
          rfl
        rw [hread] at h
        cases h
    | ok found =>
        have hread : heap.getWithSize pos = .ok (splitUserString found.1, found.2) := by
          rw [UserStringsHeap.getWithSize, hentry]
          rfl
        rw [hread] at h
        by_cases hfits : found.2 ≤ u32Max ∧ pos + found.2 ≤ u32Max
        · simp only [if_pos hfits] at h
          cases h
          exact ⟨found.1, found.2, Span.entry_ok_iff.mp hentry, rfl, rfl⟩
        · simp only [if_neg hfits] at h
          cases h

/-- The items of a run are the entries of the walk, by induction on the run. -/
theorem UserStringsIter.mem_iff {heap : UserStringsHeap} (hlen : heap.span.data.length ≤ u32Max)
    {pos : Nat} {items : List (Nat × UserString)} {stop : UserStringsIter}
    (h : Yields UserStringsIter.next ⟨heap, pos⟩ items stop) (item : Nat × UserString) :
    item ∈ items ↔ ∃ offset body, heap.span.EntryFrom pos offset body ∧
      item = (userStringToken offset, splitUserString body) := by
  generalize hit : (⟨heap, pos⟩ : UserStringsIter) = it at h
  induction h generalizing pos with
  | done h =>
      subst hit
      refine iff_of_false List.not_mem_nil ?_
      rintro ⟨offset, body, hentry, _⟩
      have hsome : ∃ body size, heap.span.Holds pos body size := by
        cases hentry with
        | here h => exact ⟨_, _, h⟩
        | later h _ => exact ⟨_, _, h⟩
      obtain ⟨body', size, hholds⟩ := hsome
      rw [UserStringsIter.next_of_holds hlen hholds] at h
      cases h
  | item h _ ih =>
      subst hit
      obtain ⟨body, size, hholds, rfl, rfl⟩ := UserStringsIter.next_some h
      rw [List.mem_cons, ih rfl]
      constructor
      · rintro (rfl | ⟨offset, body', hentry, rfl⟩)
        · exact ⟨pos, body, .here hholds, rfl⟩
        · exact ⟨offset, body', .later hholds hentry, rfl⟩
      · rintro ⟨offset, body', hentry, rfl⟩
        -- the entry at a position is the one the accessors read there
        have hunique {body'' : List UInt8} {size' : Nat} (h' : heap.span.Holds pos body'' size') :
            body'' = body ∧ size' = size := by
          have hread : heap.span.entry pos "#US" = .ok (body'', size') := Span.entry_ok_iff.mpr h'
          rw [Span.entry_ok_iff.mpr hholds] at hread
          cases hread
          exact ⟨rfl, rfl⟩
        cases hentry with
        | here h =>
            obtain ⟨rfl, _⟩ := hunique h
            exact .inl rfl
        | later h rest =>
            obtain ⟨_, rfl⟩ := hunique h
            exact .inr ⟨offset, body', rest, rfl⟩

/-- Every heap has a run: an entry takes a byte at least. -/
theorem UserStringsIter.exists_run (heap : UserStringsHeap) :
    ∃ items stop, Yields UserStringsIter.next heap.iter items stop := by
  refine exists_yields (fun it => it.heap.span.data.length - it.pos) ?_ heap.iter
  rintro ⟨heap, pos⟩ item it h
  obtain ⟨body, size, hholds, _, rfl⟩ := UserStringsIter.next_some h
  have hend := hholds.end_le
  show heap.span.data.length - (pos + size) < heap.span.data.length - pos
  omega

/-! ## Tokens -/

/-- The token of an item has the `0x70` table byte, and looking it up returns the item. -/
def LeadsBack (heap : UserStringsHeap) (item : Nat × UserString) : Prop :=
  (⟨UInt32.ofNat item.1⟩ : UserStringToken).hasUsTableByte = true ∧
    heap.get ⟨UInt32.ofNat item.1⟩ = .ok item.2

/-- The token of an entry names it: the entry starts below 2²⁴, or the bits its start has
above are bits of `0x70` and the same string stands where the low 24 bits point. -/
def TokenNames (span : Span) (offset : Nat) (body : List UInt8) : Prop :=
  offset < 2 ^ 24 ∨ (0x70 ||| offset >>> 24 = 0x70 ∧
    ∃ body' size, span.Holds (offset % 2 ^ 24) body' size ∧
      splitUserString body' = splitUserString body)

theorem userStringToken_toNat {offset : Nat} (h : offset ≤ u32Max) :
    (UInt32.ofNat (userStringToken offset)).toNat = userStringToken offset := by
  refine UInt32.toNat_ofNat_of_lt' ?_
  have hlt : offset < 2 ^ 32 := Nat.lt_succ_of_le h
  exact Nat.or_lt_two_pow (by decide) hlt

theorem hasUsTableByte_iff {offset : Nat} (h : offset ≤ u32Max) :
    (⟨UInt32.ofNat (userStringToken offset)⟩ : UserStringToken).hasUsTableByte = true ↔
      0x70 ||| offset >>> 24 = 0x70 := by
  rw [UserStringToken.hasUsTableByte, userStringToken_toNat h, userStringToken,
    Nat.shiftRight_or_distrib, beq_iff_eq]
  rfl

theorem offset_userStringToken {offset : Nat} (h : offset ≤ u32Max) :
    (⟨UInt32.ofNat (userStringToken offset)⟩ : UserStringToken).offset = offset % 2 ^ 24 := by
  rw [UserStringToken.offset_eq_mod, userStringToken_toNat h, userStringToken,
    Nat.or_mod_two_pow, show 0x70000000 % 2 ^ 24 = 0 from rfl, Nat.zero_or]

theorem UserStringsHeap.getAt_ok_iff {heap : UserStringsHeap} {offset : Nat} {s : UserString} :
    heap.getAt offset = .ok s ↔
      ∃ body size, heap.span.Holds offset body size ∧ splitUserString body = s := by
  rw [UserStringsHeap.getAt, ok_bind_iff]
  constructor
  · rintro ⟨⟨body, size⟩, hentry, hs⟩
    cases hs
    exact ⟨body, size, Span.entry_ok_iff.mp hentry, rfl⟩
  · rintro ⟨body, size, hholds, rfl⟩
    exact ⟨(body, size), Span.entry_ok_iff.mpr hholds, rfl⟩

/-- When the token of an entry leads back to it. -/
theorem leadsBack_iff {heap : UserStringsHeap} (hlen : heap.span.data.length ≤ u32Max)
    {offset size : Nat} {body : List UInt8} (h : heap.span.Holds offset body size) :
    LeadsBack heap (userStringToken offset, splitUserString body) ↔
      TokenNames heap.span offset body := by
  have hoffset : offset ≤ u32Max := by
    have hend := h.end_le
    omega
  rw [LeadsBack, hasUsTableByte_iff hoffset, UserStringsHeap.get, offset_userStringToken hoffset,
    UserStringsHeap.getAt_ok_iff, TokenNames]
  constructor
  · exact .inr
  -- below 2 ^ 24 the token holds the whole offset
  · rintro (hlt | hfar)
    · have hbyte : offset >>> 24 = 0 := by
        rw [Nat.shiftRight_eq_div_pow]
        exact Nat.div_eq_of_lt hlt
      rw [hbyte, Nat.mod_eq_of_lt hlt]
      exact ⟨rfl, body, size, h, rfl⟩
    · exact hfar

theorem Span.EntryFrom.holds {span : Span} {start offset : Nat} {body : List UInt8}
    (h : span.EntryFrom start offset body) : ∃ size, span.Holds offset body size := by
  induction h with
  | here h => exact ⟨_, h⟩
  | later _ _ ih => exact ih

/-- Every token of the iterator leads back exactly when the token of every entry of the walk
names it. -/
theorem us_tokens_lead_back_iff (heap : UserStringsHeap)
    (hlen : heap.span.data.length ≤ u32Max) :
    (∀ items stop, Yields UserStringsIter.next heap.iter items stop →
      ∀ item ∈ items, LeadsBack heap item) ↔
    ∀ offset body, heap.span.EntryFrom 0 offset body → TokenNames heap.span offset body := by
  constructor
  · intro h offset body hentry
    obtain ⟨items, stop, hrun⟩ := UserStringsIter.exists_run heap
    obtain ⟨size, hholds⟩ := hentry.holds
    rw [← leadsBack_iff hlen hholds]
    exact h items stop hrun _ ((UserStringsIter.mem_iff hlen hrun _).mpr ⟨_, _, hentry, rfl⟩)
  · intro h items stop hrun item hitem
    obtain ⟨offset, body, hentry, rfl⟩ := (UserStringsIter.mem_iff hlen hrun item).mp hitem
    obtain ⟨size, hholds⟩ := hentry.holds
    exact (leadsBack_iff hlen hholds).mpr (h offset body hentry)

/-- A string of one unit leads back. -/
theorem us_tokens_lead_back_iff_one :
    (∀ items stop, Yields UserStringsIter.next (UserStringsHeap.new [0x03, 0x41, 0x00, 0x00] 0).iter
      items stop → ∀ item ∈ items, LeadsBack (UserStringsHeap.new [0x03, 0x41, 0x00, 0x00] 0) item) ↔
    ∀ offset body, (Span.mk [0x03, 0x41, 0x00, 0x00] 0).EntryFrom 0 offset body →
      TokenNames (Span.mk [0x03, 0x41, 0x00, 0x00] 0) offset body :=
  us_tokens_lead_back_iff (UserStringsHeap.new [0x03, 0x41, 0x00, 0x00] 0) (by decide)

/-- A string of 2²⁴ bytes, and an empty one after it. -/
def farUserString : UserStringsHeap :=
  UserStringsHeap.new ([0xC1, 0x00, 0x00, 0x00] ++ (List.replicate (2 ^ 24) 0 ++ [0x00])) 0

theorem farUserString_length : farUserString.span.data.length = 4 + (2 ^ 24 + 1) := by
  rw [farUserString, UserStringsHeap.new, List.length_append, List.length_append,
    List.length_replicate]
  rfl

/-- An empty entry after another one. -/
theorem Span.entryFrom_second {pre body : List UInt8} (h : Compressed.Payload body.length pre)
    (base : Nat) :
    (Span.mk (pre ++ (body ++ [0x00])) base).EntryFrom 0 (pre.length + body.length) [] := by
  have hfirst : (Span.mk (pre ++ (body ++ [0x00])) base).Holds 0 body (pre.length + body.length) :=
    ⟨pre, [0x00], h, List.drop_zero, rfl⟩
  have hsecond : (Span.mk (pre ++ (body ++ [0x00])) base).Holds (pre.length + body.length) [] 1 := by
    refine ⟨[0x00], [], .one 0 (by decide), ?_, rfl⟩
    rw [← List.append_assoc, ← List.length_append, List.drop_left]
    rfl
  exact .later hfirst (by rw [Nat.zero_add]; exact .here hsecond)

/-- The empty string starts at 2²⁴ + 4. -/
theorem farUserString_entry : farUserString.span.EntryFrom 0 (2 ^ 24 + 4) [] := by
  have hpayload : Compressed.Payload (List.replicate (2 ^ 24) (0 : UInt8)).length
      [0xC1, 0x00, 0x00, 0x00] := by
    rw [List.length_replicate]
    exact .four 0xC1 0 0 0 (by decide)
  have hentry := Span.entryFrom_second hpayload 0
  rw [List.length_replicate, Nat.add_comm] at hentry
  exact hentry

/-- Its token has the table byte `0x71`. -/
theorem farUserString_lost :
    ¬ ∀ heap : UserStringsHeap, heap.span.data.length ≤ u32Max → ∀ items stop,
      Yields UserStringsIter.next heap.iter items stop → ∀ item ∈ items, LeadsBack heap item := by
  intro h
  have hlen : farUserString.span.data.length ≤ u32Max := by
    rw [farUserString_length]
    decide
  obtain ⟨items, stop, hrun⟩ := UserStringsIter.exists_run farUserString
  have hmem := (UserStringsIter.mem_iff hlen hrun _).mpr ⟨_, _, farUserString_entry, rfl⟩
  have hlost : ¬ (⟨UInt32.ofNat (userStringToken (2 ^ 24 + 4))⟩ :
      UserStringToken).hasUsTableByte = true := by decide
  exact hlost (h _ hlen _ _ hrun _ hmem).1

end Cildec
