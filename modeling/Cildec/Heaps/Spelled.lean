import Cildec.Heaps.Tokens

/-!
# Heaps of any bytes (`src/heaps.rs`)

A heap need not have been written by the rules: a length may take more bytes than it needs, and
the heap may end in bytes that are no entry. Whatever its bytes are, the iterators read it from
its start, entry by entry, up to the first bytes that are none.

* `exists_entries`: every heap is entries, and what is left where none starts;
* `entries_tile`: the iterators of `#Blob` and `#US` return these entries, and so do the
  accessors where they start.
-/

namespace Cildec

open Wire

/-- An entry as it stands in a heap: a length, in however many bytes, and the body behind it. -/
structure HeapEntry where
  lead : List UInt8
  body : List UInt8
  spelled : Compressed.Payload body.length lead

namespace HeapEntry

def bytes (e : HeapEntry) : List UInt8 := e.lead ++ e.body

theorem bytes_length (e : HeapEntry) : e.bytes.length = e.lead.length + e.body.length :=
  List.length_append

theorem bytes_pos (e : HeapEntry) : 0 < e.bytes.length := by
  have hlead := e.spelled.length_pos
  rw [e.bytes_length]
  omega

/-- An entry is held where it stands. -/
theorem holds {pre post : List UInt8} (base : Nat) (e : HeapEntry) :
    (Span.mk (pre ++ (e.bytes ++ post)) base).Holds pre.length e.body e.bytes.length := by
  refine ⟨e.lead, post, e.spelled, ?_, e.bytes_length⟩
  show (pre ++ (e.bytes ++ post)).drop pre.length = _
  rw [List.drop_left, bytes, List.append_assoc]

end HeapEntry

/-- What a heap holds is the front of the bytes there. -/
theorem Span.Holds.exists_entry {span : Span} {offset size : Nat} {body : List UInt8}
    (h : span.Holds offset body size) : ∃ e : HeapEntry, e.bytes <+: span.data.drop offset := by
  obtain ⟨lead, tl, hspelled, hdrop, _⟩ := h
  refine ⟨⟨lead, body, hspelled⟩, tl, ?_⟩
  rw [hdrop, HeapEntry.bytes, List.append_assoc]

/-- Bytes are entries one after another, and what is left where none starts. -/
theorem exists_entries (data : List UInt8) : ∃ (entries : List HeapEntry) (rest : List UInt8),
    data = entries.flatMap HeapEntry.bytes ++ rest ∧ ∀ e : HeapEntry, ¬ e.bytes <+: rest := by
  induction hn : data.length using Nat.strong_induction_on generalizing data with
  | _ n ih =>
      by_cases hentry : ∃ e : HeapEntry, e.bytes <+: data
      · obtain ⟨e, tl, rfl⟩ := hentry
        have hpos := e.bytes_pos
        rw [List.length_append] at hn
        obtain ⟨entries, rest, rfl, hrest⟩ := ih tl.length (by omega) tl rfl
        refine ⟨e :: entries, rest, ?_, hrest⟩
        rw [List.flatMap_cons, List.append_assoc]
      · exact ⟨[], data, rfl, fun e he => hentry ⟨e, he⟩⟩

/-! ## Reading them -/

section Spelled

variable {entries : List HeapEntry} {rest : List UInt8} {base : Nat}

theorem Span.holds_starts {item : Nat × HeapEntry}
    (h : item ∈ startsFrom (fun e => e.bytes.length) 0 entries) :
    (Span.mk (entries.flatMap HeapEntry.bytes ++ rest) base).Holds item.1 item.2.body
      item.2.bytes.length := by
  obtain ⟨pre, post, hsplit, hoffset⟩ := startsFrom_split h
  rw [hsplit, hoffset, Nat.zero_add, List.append_assoc, List.append_assoc]
  exact item.2.holds base

/-- An iterator that walks over a heap visits its entries in order, and stops for good where none
starts. -/
theorem Span.iterates {β γ σ : Type} {f : List UInt8 → β} {read : Nat → Result (β × Nat)}
    {context : String} {next : σ → Option γ × σ} {state : Nat → σ} {item : Nat × β → γ}
    (hread : ∀ offset, read offset =
      ((Span.mk (entries.flatMap HeapEntry.bytes ++ rest) base).entry offset context).map
        fun entry => (f entry.1, entry.2))
    (hnext : ∀ pos, next (state pos) =
      ((entryNext (entries.flatMap HeapEntry.bytes ++ rest).length read pos).1.map item,
        state (entryNext (entries.flatMap HeapEntry.bytes ++ rest).length read pos).2))
    (hrest : ∀ e : HeapEntry, ¬ e.bytes <+: rest)
    (hlen : (entries.flatMap HeapEntry.bytes ++ rest).length < 2 ^ 32) :
    ∃ stop, Yields next (state 0)
        ((startsFrom (fun e => e.bytes.length) 0 entries).map
          fun start => item (start.1, f start.2.body)) stop ∧
      Exhausted next stop := by
  have hsum : 0 + (entries.map fun e => e.bytes.length).sum =
      (entries.flatMap HeapEntry.bytes).length := by
    rw [Nat.zero_add, List.length_flatMap]
  have hstarts (start : Nat × HeapEntry)
      (hstart : start ∈ startsFrom (fun e => e.bytes.length) 0 entries) :
      read start.1 = .ok (f start.2.body, start.2.bytes.length) := by
    rw [hread, Span.entry_ok_iff.mpr (Span.holds_starts hstart)]
    rfl
  have hfits : 0 + (entries.map fun e => e.bytes.length).sum ≤
      (entries.flatMap HeapEntry.bytes ++ rest).length := by
    rw [hsum, List.length_append]
    exact Nat.le_add_right _ _
  have hend : ¬ (read (0 + (entries.map fun e => e.bytes.length).sum)).isOk := by
    rw [hsum, hread]
    cases hentry : (Span.mk (entries.flatMap HeapEntry.bytes ++ rest) base).entry
        (entries.flatMap HeapEntry.bytes).length context with
    | error e => exact fun h => nomatch h
    | ok entry =>
        -- an entry there would be one at the front of what is left
        obtain ⟨e, he⟩ := (Span.entry_ok_iff.mp hentry).exists_entry
        simp only [List.drop_left] at he
        exact absurd he (hrest e)
  obtain ⟨hyields, hstop⟩ := yields_entries (f := fun e : HeapEntry => f e.body)
    (Nat.le_pred_of_lt hlen) HeapEntry.bytes_pos hstarts hfits (.inr hend)
  have hmap := Yields.map hnext hyields
  rw [List.map_map] at hmap
  refine ⟨_, hmap, exhausted_of_stays ?_⟩
  rw [hnext, hstop]
  rfl

theorem BlobHeap.iterates (hrest : ∀ e : HeapEntry, ¬ e.bytes <+: rest)
    (hlen : (entries.flatMap HeapEntry.bytes ++ rest).length < 2 ^ 32) :
    ∃ stop, Yields BlobIter.next
        (BlobHeap.new (entries.flatMap HeapEntry.bytes ++ rest) base).iter
        ((startsFrom (fun e => e.bytes.length) 0 entries).map
          fun start => (start.1, start.2.body)) stop ∧
      Exhausted BlobIter.next stop := by
  let heap := BlobHeap.new (entries.flatMap HeapEntry.bytes ++ rest) base
  have hread (index : Nat) : heap.getWithSize index =
      (heap.span.entry index "#Blob").map fun entry => (id entry.1, entry.2) := by
    rw [BlobHeap.getWithSize]
    cases heap.span.entry index "#Blob" <;> rfl
  exact Span.iterates hread (BlobIter.next_eq heap) hrest hlen

theorem UserStringsHeap.iterates (hrest : ∀ e : HeapEntry, ¬ e.bytes <+: rest)
    (hlen : (entries.flatMap HeapEntry.bytes ++ rest).length < 2 ^ 32) :
    ∃ stop, Yields UserStringsIter.next
        (UserStringsHeap.new (entries.flatMap HeapEntry.bytes ++ rest) base).iter
        ((startsFrom (fun e => e.bytes.length) 0 entries).map
          fun start => (userStringToken start.1, splitUserString start.2.body)) stop ∧
      Exhausted UserStringsIter.next stop := by
  let heap := UserStringsHeap.new (entries.flatMap HeapEntry.bytes ++ rest) base
  have hread (offset : Nat) : heap.getWithSize offset =
      (heap.span.entry offset "#US").map fun entry => (splitUserString entry.1, entry.2) := by
    rw [UserStringsHeap.getWithSize]
    cases heap.span.entry offset "#US" <;> rfl
  exact Span.iterates hread (UserStringsIter.next_eq heap) hrest hlen

/-- The body of a blob is placed behind its length. -/
theorem BlobHeap.bodyOffset_eq {pre post : List UInt8} (e : HeapEntry) :
    (BlobHeap.new (pre ++ (e.bytes ++ post)) base).bodyOffset pre.length =
      .ok (satAdd (satAdd base pre.length) e.lead.length) := by
  have hat : (Span.mk (pre ++ (e.bytes ++ post)) base).at_ pre.length "#Blob" =
      .ok (e.lead ++ (e.body ++ post)) := by
    rw [Span.at_, if_pos (by simp), List.drop_left, HeapEntry.bytes, List.append_assoc]
  have hread : Compressed.readU32 (e.lead ++ (e.body ++ post)) =
      .ok (e.body.length, e.lead.length) := Compressed.readPayload_append e.spelled _
  simp only [BlobHeap.bodyOffset, BlobHeap.new, hat, hread, Except.mapError, bind, Except.bind,
    pure, Except.pure]

end Spelled

/-- Every heap is entries one after another, and what is left where none starts; and both
iterators return these entries in order and end there for good, and both accessors return each of
them where it starts, the blob with the place of its body. -/
theorem entries_tile (data : List UInt8) (base : Nat) (hlen : data.length < 2 ^ 32) :
    ∃ (entries : List HeapEntry) (rest : List UInt8),
      data = entries.flatMap HeapEntry.bytes ++ rest ∧ (∀ e : HeapEntry, ¬ e.bytes <+: rest) ∧
      (∃ stop, Yields BlobIter.next (BlobHeap.new data base).iter
          ((startsFrom (fun e => e.bytes.length) 0 entries).map
            fun item => (item.1, item.2.body)) stop ∧
        Exhausted BlobIter.next stop) ∧
      (∃ stop, Yields UserStringsIter.next (UserStringsHeap.new data base).iter
          ((startsFrom (fun e => e.bytes.length) 0 entries).map
            fun item => (userStringToken item.1, splitUserString item.2.body)) stop ∧
        Exhausted UserStringsIter.next stop) ∧
      ∀ item ∈ startsFrom (fun e => e.bytes.length) 0 entries,
        (BlobHeap.new data base).get item.1 = .ok item.2.body ∧
        (BlobHeap.new data base).bodyOffset item.1 =
          .ok (satAdd (satAdd base item.1) item.2.lead.length) ∧
        (UserStringsHeap.new data base).getAt item.1 = .ok (splitUserString item.2.body) := by
  obtain ⟨entries, rest, rfl, hrest⟩ := exists_entries data
  refine ⟨entries, rest, rfl, hrest, BlobHeap.iterates hrest hlen,
    UserStringsHeap.iterates hrest hlen, ?_⟩
  intro item hitem
  have hholds : (Span.mk (entries.flatMap HeapEntry.bytes ++ rest) base).Holds item.1
      item.2.body item.2.bytes.length := Span.holds_starts hitem
  refine ⟨BlobHeap.get_of_entry (Span.entry_ok_iff.mpr hholds), ?_,
    UserStringsHeap.getAt_of_entry (Span.entry_ok_iff.mpr hholds)⟩
  obtain ⟨pre, post, hsplit, hoffset⟩ := startsFrom_split hitem
  rw [hsplit, hoffset, Nat.zero_add, List.append_assoc, List.append_assoc]
  exact BlobHeap.bodyOffset_eq item.2

/-- An empty blob, one whose length takes two bytes, and a byte that starts no length. -/
theorem entries_tile_long : ∃ (entries : List HeapEntry) (rest : List UInt8),
    [0x00, 0x80, 0x01, 0xAA, 0xFF] = entries.flatMap HeapEntry.bytes ++ rest ∧
      (startsFrom (fun e => e.bytes.length) 0 entries).map (fun item => (item.1, item.2.body)) =
        [(0, []), (1, [0xAA])] := by
  obtain ⟨entries, rest, hdata, _, ⟨stop, hyields, _⟩, _⟩ :=
    entries_tile [0x00, 0x80, 0x01, 0xAA, 0xFF] 0x40 (by decide)
  exact ⟨entries, rest, hdata, (hyields.unique (.item rfl (.item rfl (.done rfl)))).1⟩

end Cildec
