import Cildec.Heaps
import Cildec.Lib.Iter
import Cildec.Lib.Segments

/-!
# Heaps of length-prefixed entries

* `prefixed`: a body behind its length, as `write_u32` spells it;
* `Span.entry_prefixed`: the accessors find such an entry where it starts;
* `yields_entries`: the iterators visit them in order;
* `heaps_decode_encoded`: both, for the blobs and the user strings.
-/

namespace Cildec

open Wire

/-- A body behind its length prefix. -/
def prefixed (body : List UInt8) : List UInt8 := Compressed.bytes body.length ++ body

/-- The body of a `#US` entry: the code units and the flag byte. -/
def userStringBody (entry : List UInt16 × UInt8) : List UInt8 :=
  entry.1.flatMap (fun unit => leBytes 2 unit.toNat) ++ [entry.2]

/-! ## One entry -/

theorem prefixed_length_pos (body : List UInt8) : 0 < (prefixed body).length := by
  have hzero : 0 < (Compressed.bytes 0).length := by decide
  rw [prefixed, List.length_append]
  cases body with
  | nil => exact Nat.lt_of_lt_of_le hzero (Nat.le_add_right _ _)
  | cons b body => exact Nat.lt_of_lt_of_le (Nat.zero_lt_succ _) (Nat.le_add_left _ _)

/-- An entry is found at the position its length prefix stands at. -/
theorem Span.entry_prefixed {pre body post : List UInt8} (base : Nat) (context : String)
    (h : body.length < 2 ^ 29) :
    (Span.mk (pre ++ (prefixed body ++ post)) base).entry pre.length context =
      .ok (body, (prefixed body).length) := by
  have hpayload : Compressed.Payload body.length (Compressed.bytes body.length) :=
    Compressed.payload_bytes (Nat.le_pred_of_lt h)
  have hat : (Span.mk (pre ++ (prefixed body ++ post)) base).at_ pre.length context =
      .ok (prefixed body ++ post) := by
    rw [Span.at_, if_pos (by simp), List.drop_left]
  have hread : Compressed.readU32 (prefixed body ++ post) =
      .ok (body.length, (Compressed.bytes body.length).length) := by
    rw [prefixed, List.append_assoc]
    exact Compressed.readPayload_append hpayload _
  have hslice : slice? (prefixed body ++ post) (Compressed.bytes body.length).length
      ((Compressed.bytes body.length).length + body.length) = some body := by
    rw [prefixed, List.append_assoc]
    exact slice?_append _ _ _
  simp only [Span.entry, hat, hread, Except.mapError, hslice, bind, Except.bind, pure, Except.pure]
  rw [prefixed, List.length_append]

/-- Whether an entry can be decoded depends on the bytes from its position on. -/
theorem Span.entry_isOk_append {pre tail : List UInt8} {base : Nat} {context : String} :
    ((Span.mk (pre ++ tail) base).entry pre.length context).isOk =
      ((Span.mk tail 0).entry 0 context).isOk := by
  have hat : (Span.mk (pre ++ tail) base).at_ pre.length context = .ok tail := by
    rw [Span.at_, if_pos (by simp), List.drop_left]
  have hat' : (Span.mk tail 0).at_ 0 context = .ok tail := by
    rw [Span.at_, if_pos (Nat.zero_le _)]
    rfl
  simp only [Span.entry, hat, hat', bind, Except.bind]
  cases Compressed.readU32 tail with
  | error e => rfl
  | ok result =>
      simp only [Except.mapError]
      cases slice? tail result.2 (result.2 + result.1) <;> rfl

/-! ## The entries in order -/

/-- Entries that can be read where they start are visited in order, up to the end of the heap
or an entry that cannot be read. -/
theorem yields_entries {α β : Type} {read : Nat → Result (β × Nat)} {f : α → β} {size : α → Nat}
    {len : Nat} (hlen : len ≤ u32Max) (hpos : ∀ a, 0 < size a) {as : List α} {start : Nat}
    (hread : ∀ entry ∈ startsFrom size start as,
      read entry.1 = .ok (f entry.2, size entry.2))
    (hfits : start + (as.map size).sum ≤ len)
    (hend : start + (as.map size).sum = len ∨ ¬ (read (start + (as.map size).sum)).isOk) :
    Yields (entryNext len read) start
        ((startsFrom size start as).map fun entry => (entry.1, f entry.2))
        (start + (as.map size).sum) ∧
      entryNext len read (start + (as.map size).sum) = (none, start + (as.map size).sum) := by
  induction as generalizing start with
  | nil =>
      have hstop : entryNext len read start = (none, start) := by
        -- the walk stops at the end of the heap or at bytes that are no entry
        rcases hend with heq | hfail
        · exact if_pos (Nat.le_of_eq heq.symm)
        · rw [entryNext]
          by_cases hle : len ≤ start
          · rw [if_pos hle]
          · rw [if_neg hle]
            cases hr : read start with
            | error e => rfl
            | ok p =>
                have hok : read (start + (([] : List α).map size).sum) = .ok p := hr
                rw [hok] at hfail
                exact absurd rfl hfail
      exact ⟨.done hstop, hstop⟩
  | cons a as ih =>
      rw [List.map_cons, List.sum_cons, ← Nat.add_assoc] at hfits hend ⊢
      have ha : read start = .ok (f a, size a) := hread _ List.mem_cons_self
      have hstep : entryNext len read start = (some (start, f a), start + size a) := by
        have hsize := hpos a
        rw [entryNext, if_neg (by omega), ha]
        exact if_pos ⟨by omega, by omega⟩
      obtain ⟨htail, hstop⟩ :=
        ih (fun entry h => hread entry (List.mem_cons_of_mem _ h)) hfits hend
      exact ⟨.item hstep htail, hstop⟩

/-- Every entry of a heap can be read where it starts. -/
theorem Span.entry_starts {bodies : List (List UInt8)} {tail : List UInt8} {base : Nat}
    (context : String) (hshort : ∀ body ∈ bodies, body.length < 2 ^ 29)
    {offset : Nat} {body : List UInt8}
    (h : (offset, body) ∈ startsFrom (fun body => (prefixed body).length) 0 bodies) :
    (Span.mk (bodies.flatMap prefixed ++ tail) base).entry offset context =
      .ok (body, (prefixed body).length) := by
  obtain ⟨pre, post, hsplit, rfl⟩ := startsFrom_split h
  have hmem : body ∈ bodies := startsFrom_mem h
  rw [hsplit, List.append_assoc, List.append_assoc, Nat.zero_add]
  exact Span.entry_prefixed base context (hshort body hmem)

/-- A heap of entries is read in order to its end, or to a tail that does not decode. -/
theorem Span.yields_prefixed {β : Type} {f : List UInt8 → β} {read : Nat → Result (β × Nat)}
    {bodies : List (List UInt8)} {tail : List UInt8} {base : Nat} {context : String}
    (hread : ∀ offset, read offset =
      ((Span.mk (bodies.flatMap prefixed ++ tail) base).entry offset context).map
        fun entry => (f entry.1, entry.2))
    (hshort : ∀ body ∈ bodies, body.length < 2 ^ 29)
    (htail : tail = [] ∨ ¬ ((Span.mk tail 0).entry 0 context).isOk)
    (hlen : (bodies.flatMap prefixed ++ tail).length < 2 ^ 32) :
    ∃ stop,
      Yields (entryNext (bodies.flatMap prefixed ++ tail).length read) 0
        ((startsFrom (fun body => (prefixed body).length) 0 bodies).map
          fun entry => (entry.1, f entry.2)) stop ∧
      entryNext (bodies.flatMap prefixed ++ tail).length read stop = (none, stop) := by
  have hsum : 0 + (bodies.map fun body => (prefixed body).length).sum =
      (bodies.flatMap prefixed).length := by
    rw [Nat.zero_add, List.length_flatMap]
  refine ⟨_, yields_entries (Nat.le_pred_of_lt hlen) prefixed_length_pos ?_ ?_ ?_⟩
  · rintro ⟨offset, body⟩ h
    rw [hread, Span.entry_starts context hshort h]
    rfl
  · rw [hsum, List.length_append]
    exact Nat.le_add_right _ _
  · rw [hsum]
    rcases htail with rfl | hfail
    · left
      rw [List.append_nil]
    · right
      -- a tail that is no entry is none behind other entries either
      have hsame : ((Span.mk (bodies.flatMap prefixed ++ tail) base).entry
          (bodies.flatMap prefixed).length context).isOk =
            ((Span.mk tail 0).entry 0 context).isOk := Span.entry_isOk_append
      rw [hread]
      cases hentry : (Span.mk (bodies.flatMap prefixed ++ tail) base).entry
          (bodies.flatMap prefixed).length context with
      | error e => exact fun h => nomatch h
      | ok entry =>
          rw [hentry] at hsame
          exact absurd hsame.symm hfail

/-! ## Blobs -/

/-- The iterator over the blobs is the walk over the entries of the heap. -/
theorem BlobIter.next_eq (heap : BlobHeap) (pos : Nat) :
    BlobIter.next ⟨heap, pos⟩ =
      ((entryNext heap.span.data.length heap.getWithSize pos).1.map id,
        ⟨heap, (entryNext heap.span.data.length heap.getWithSize pos).2⟩) := by
  rw [Option.map_id]
  rfl

theorem BlobHeap.get_of_entry {heap : BlobHeap} {index size : Nat} {blob : List UInt8}
    (h : heap.span.entry index "#Blob" = .ok (blob, size)) : heap.get index = .ok blob := by
  rw [BlobHeap.get, h]
  rfl

theorem BlobHeap.get_isOk (heap : BlobHeap) (index : Nat) :
    (heap.get index).isOk = (heap.span.entry index "#Blob").isOk := by
  rw [BlobHeap.get]
  cases heap.span.entry index "#Blob" <;> rfl

/-! ## User strings -/

/-- What a `#US` entry of code units and a flag is decoded to. -/
def userStringOf (entry : List UInt16 × UInt8) : UserString :=
  ⟨entry.1.flatMap fun unit => leBytes 2 unit.toNat, some entry.2, false⟩

theorem unitBytes_length (units : List UInt16) :
    (units.flatMap fun unit => leBytes 2 unit.toNat).length = units.length * 2 :=
  length_flatMap_const fun _ _ => leBytes_length 2 _

theorem UserString.codeUnits_of (entry : List UInt16 × UInt8) :
    (userStringOf entry).codeUnits = entry.1 := by
  obtain ⟨units, flag⟩ := entry
  rw [UserString.codeUnits, userStringOf, unitBytes_length, Nat.mul_div_cancel _ (by decide)]
  refine List.ext_getElem (by simp) fun i _ hi => ?_
  obtain ⟨pre, post, hsplit, hpre⟩ := flatMap_split_const
    (f := fun unit : UInt16 => leBytes 2 unit.toNat) (fun _ _ => leBytes_length 2 _)
    (List.getElem?_eq_getElem hi)
  rw [List.getElem_map, List.getElem_range, hsplit, Nat.mul_comm 2 i,
    take_drop_append hpre (leBytes_length 2 _)]
  exact ofNat_leNat_leBytes_u16 _

theorem splitUserString_body (entry : List UInt16 × UInt8) :
    splitUserString (userStringBody entry) = userStringOf entry := by
  obtain ⟨units, flag⟩ := entry
  have heven : ¬ (units.flatMap fun unit => leBytes 2 unit.toNat).length % 2 ≠ 0 := by
    rw [unitBytes_length]
    omega
  simp only [splitUserString, userStringBody, List.getLast?_append, List.getLast?_singleton,
    Option.some_or, List.dropLast_concat, if_neg heven]
  rfl

theorem UserStringsIter.next_eq (heap : UserStringsHeap) (pos : Nat) :
    UserStringsIter.next ⟨heap, pos⟩ =
      ((entryNext heap.span.data.length heap.getWithSize pos).1.map
          fun item => (userStringToken item.1, item.2),
        ⟨heap, (entryNext heap.span.data.length heap.getWithSize pos).2⟩) := rfl

theorem UserStringsHeap.getAt_of_entry {heap : UserStringsHeap} {offset size : Nat}
    {body : List UInt8} (h : heap.span.entry offset "#US" = .ok (body, size)) :
    heap.getAt offset = .ok (splitUserString body) := by
  rw [UserStringsHeap.getAt, h]
  rfl

theorem UserStringsHeap.getAt_isOk (heap : UserStringsHeap) (offset : Nat) :
    (heap.getAt offset).isOk = (heap.span.entry offset "#US").isOk := by
  rw [UserStringsHeap.getAt]
  cases heap.span.entry offset "#US" <;> rfl

/-! ## Both heaps -/

/-- Entries written one after another are visited in order, each with its offset, and found
there again; the iterator then ends for good. -/
theorem heaps_decode_encoded (base : Nat) (tail : List UInt8) :
    (∀ blobs : List (List UInt8), (∀ blob ∈ blobs, blob.length < 2 ^ 29) →
      (tail = [] ∨ ¬ ((BlobHeap.new tail 0).get 0).isOk) →
      (blobs.flatMap prefixed ++ tail).length < 2 ^ 32 →
      (∃ stop, Yields BlobIter.next (BlobHeap.new (blobs.flatMap prefixed ++ tail) base).iter
          (startsFrom (fun blob => (prefixed blob).length) 0 blobs) stop ∧
        Exhausted BlobIter.next stop) ∧
      ∀ item ∈ startsFrom (fun blob => (prefixed blob).length) 0 blobs,
        (BlobHeap.new (blobs.flatMap prefixed ++ tail) base).get item.1 = .ok item.2) ∧
    (∀ entries : List (List UInt16 × UInt8),
      (∀ entry ∈ entries, (userStringBody entry).length < 2 ^ 29) →
      (tail = [] ∨ ¬ ((UserStringsHeap.new tail 0).getAt 0).isOk) →
      ((entries.map userStringBody).flatMap prefixed ++ tail).length < 2 ^ 32 →
      (∃ stop, Yields UserStringsIter.next
          (UserStringsHeap.new ((entries.map userStringBody).flatMap prefixed ++ tail) base).iter
          ((startsFrom (fun entry => (prefixed (userStringBody entry)).length) 0 entries).map
            fun item => (userStringToken item.1, userStringOf item.2)) stop ∧
        Exhausted UserStringsIter.next stop) ∧
      ∀ item ∈ startsFrom (fun entry => (prefixed (userStringBody entry)).length) 0 entries,
        (UserStringsHeap.new ((entries.map userStringBody).flatMap prefixed ++ tail) base).getAt
            item.1 = .ok (userStringOf item.2) ∧
          (userStringOf item.2).codeUnits = item.2.1 ∧
          (userStringOf item.2).flag = some item.2.2 ∧
          (userStringOf item.2).oddLength = false) := by
  refine ⟨?_, ?_⟩
  · intro blobs hshort htail hlen
    let heap := BlobHeap.new (blobs.flatMap prefixed ++ tail) base
    have htail' : tail = [] ∨ ¬ ((Span.mk tail 0).entry 0 "#Blob").isOk :=
      htail.imp_right fun h hok => h (by rwa [BlobHeap.get_isOk])
    have hread : ∀ index, heap.getWithSize index =
        (heap.span.entry index "#Blob").map fun entry => (id entry.1, entry.2) := by
      intro index
      rw [BlobHeap.getWithSize]
      cases heap.span.entry index "#Blob" <;> rfl
    obtain ⟨stop, hyields, hstop⟩ := Span.yields_prefixed hread hshort htail' hlen
    refine ⟨⟨⟨heap, stop⟩, ?_, ?_⟩, ?_⟩
    · have hmap := Yields.map (g := fun pos => BlobIter.mk heap pos) (BlobIter.next_eq heap) hyields
      simp only [id_eq, List.map_id_fun', List.map_id] at hmap
      exact hmap
    · have hend : entryNext heap.span.data.length heap.getWithSize stop = (none, stop) := hstop
      refine exhausted_of_stays ?_
      rw [BlobIter.next_eq, hend]
      rfl
    · rintro ⟨offset, blob⟩ h
      exact BlobHeap.get_of_entry (Span.entry_starts "#Blob" hshort h)
  · intro entries hshort htail hlen
    let heap := UserStringsHeap.new ((entries.map userStringBody).flatMap prefixed ++ tail) base
    have hshort' : ∀ body ∈ entries.map userStringBody, body.length < 2 ^ 29 :=
      List.forall_mem_map.mpr hshort
    have htail' : tail = [] ∨ ¬ ((Span.mk tail 0).entry 0 "#US").isOk :=
      htail.imp_right fun h hok => h (by rwa [UserStringsHeap.getAt_isOk])
    have hread : ∀ offset, heap.getWithSize offset =
        (heap.span.entry offset "#US").map fun entry => (splitUserString entry.1, entry.2) := by
      intro offset
      rw [UserStringsHeap.getWithSize]
      cases heap.span.entry offset "#US" <;> rfl
    obtain ⟨stop, hyields, hstop⟩ := Span.yields_prefixed hread hshort' htail' hlen
    refine ⟨⟨⟨heap, stop⟩, ?_, ?_⟩, ?_⟩
    · have hmap := Yields.map (g := fun pos => UserStringsIter.mk heap pos)
        (UserStringsIter.next_eq heap) hyields
      simp only [startsFrom_map, List.map_map, Function.comp_def, splitUserString_body] at hmap
      exact hmap
    · have hend : entryNext heap.span.data.length heap.getWithSize stop = (none, stop) := hstop
      refine exhausted_of_stays ?_
      rw [UserStringsIter.next_eq, hend]
      rfl
    · rintro ⟨offset, entry⟩ h
      have hmem : (offset, userStringBody entry) ∈
          startsFrom (fun body => (prefixed body).length) 0 (entries.map userStringBody) := by
        rw [startsFrom_map]
        exact List.mem_map.mpr ⟨_, h, rfl⟩
      refine ⟨?_, UserString.codeUnits_of entry, rfl, rfl⟩
      have hget : heap.getAt offset = .ok (splitUserString (userStringBody entry)) :=
        UserStringsHeap.getAt_of_entry (Span.entry_starts "#US" hshort' hmem)
      rw [splitUserString_body] at hget
      exact hget

/-- Two entries of each heap, before a byte that starts no length. -/
theorem heaps_decode_hello :
    (BlobHeap.new [0x00, 0x02, 0xAA, 0xBB, 0xFF] 0x40).get 1 = .ok [0xAA, 0xBB] ∧
    (UserStringsHeap.new [0x01, 0x00, 0x05, 0x48, 0x00, 0x69, 0x00, 0x01, 0xFF] 0x40).getAt 2 =
      .ok ⟨[0x48, 0x00, 0x69, 0x00], some 1, false⟩ := by
  have h := heaps_decode_encoded 0x40 [0xFF]
  have hblobs := h.1 [[], [0xAA, 0xBB]] (by decide) (.inr (by decide)) (by decide)
  have hstrings := h.2 [([], 0), ([0x48, 0x69], 1)] (by decide) (.inr (by decide)) (by decide)
  exact ⟨hblobs.2 (1, [0xAA, 0xBB]) (by decide),
    (hstrings.2 (2, ([0x48, 0x69], 1)) (by decide)).1⟩

end Cildec
