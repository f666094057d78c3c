import Cildec.Heaps
import Cildec.Lib.Iter
import Cildec.Lib.Pieces

/-!
# The entries of the `#Strings` heap (`src/heaps.rs`)

The iterator cuts the heap at its NULs, and an index is read up to the next one: both are
`pieces` of the heap bytes.

* `StringsIter.yields`: what the iterator visits;
* `StringsHeap.bytes_inside`: what is read at an index inside an entry;
* `strings_tile`: the entries tile the heap and agree with random access.
-/

namespace Cildec

open Wire

/-- The entries of heap bytes, each with the index it starts at. -/
def stringEntries (data : List UInt8) : List (Nat × List UInt8) :=
  startsFrom (fun entry : List UInt8 => entry.length + 1) 0 (pieces 0 data)

theorem StringsHeap.bytes_eq (heap : StringsHeap) {index : Nat}
    (h : index ≤ heap.span.data.length) :
    heap.bytes index = .ok (upTo 0 (heap.span.data.drop index)) := by
  rw [StringsHeap.bytes, Span.at_, if_pos h]
  rfl

/-- One call: the entry at the position, which ends at the next NUL. -/
theorem StringsIter.next_eq {data : List UInt8} {pos : Nat} (hlen : data.length < 2 ^ 32)
    (hpos : pos < data.length) :
    StringsIter.next ⟨data, pos⟩ =
      (some (pos, upTo 0 (data.drop pos)),
        ⟨data, pos + ((upTo 0 (data.drop pos)).length + 1)⟩) := by
  have hindex : pos % 2 ^ 32 = pos := Nat.mod_eq_of_lt (hpos.trans hlen)
  rw [StringsIter.next, if_neg (Nat.not_le.mpr hpos), upTo_length, ← Nat.add_assoc]
  simp only [hindex]
  rfl

/-- The iterator visits the entries from its position on, and ends for good. -/
theorem StringsIter.yields {data : List UInt8} (hlen : data.length < 2 ^ 32) (pos : Nat) :
    ∃ stop, Yields StringsIter.next ⟨data, pos⟩
        (startsFrom (fun entry : List UInt8 => entry.length + 1) pos (pieces 0 (data.drop pos)))
        stop ∧ Exhausted StringsIter.next stop := by
  induction hn : data.length - pos using Nat.strong_induction_on generalizing pos with
  | _ n ih =>
      -- every entry takes a byte at least, its NUL
      by_cases hpos : pos < data.length
      · have hne : data.drop pos ≠ [] := by
          rw [Ne, List.drop_eq_nil_iff]
          omega
        obtain ⟨stop, htail, hstop⟩ :=
          ih _ (by omega) (pos + ((upTo 0 (data.drop pos)).length + 1)) rfl
        refine ⟨stop, ?_, hstop⟩
        rw [pieces_of_ne_nil hne, startsFrom]
        refine .item (StringsIter.next_eq hlen hpos) ?_
        rwa [List.drop_drop, ← upTo_length 0 (data.drop pos)]
      · have hend : StringsIter.next ⟨data, pos⟩ = (none, ⟨data, pos⟩) :=
          if_pos (Nat.not_lt.mp hpos)
        rw [List.drop_eq_nil_of_le (Nat.not_lt.mp hpos)]
        exact ⟨_, .done hend, exhausted_of_stays hend⟩

/-- At an index inside an entry stands the rest of it. -/
theorem StringsHeap.bytes_inside (heap : StringsHeap) {item : Nat × List UInt8}
    (hitem : item ∈ stringEntries heap.span.data) {k : Nat} (hk : k ≤ item.2.length) :
    heap.bytes (item.1 + k) = .ok (item.2.drop k) := by
  obtain ⟨i, hindex, hlt, hentry⟩ := startsFrom_pieces hitem
  rw [Nat.zero_add] at hindex
  rw [hentry, upTo_length] at hk
  have hle : firstOf 0 (heap.span.data.drop i) ≤ heap.span.data.length - i := by
    rw [← upTo_length, ← List.length_drop]
    exact List.length_take_le' _ _
  rw [hindex, hentry, heap.bytes_eq (by omega), ← upTo_drop hk, List.drop_drop]

/-- The entries the iterator visits tile the heap: they follow one another with a NUL between
them, and random access at or inside an entry returns it from there on. -/
theorem strings_tile (data : List UInt8) (base : Nat) (hlen : data.length < 2 ^ 32) :
    ∃ items stop, Yields StringsIter.next (StringsHeap.new data base).iter items stop ∧
      Exhausted StringsIter.next stop ∧
      items = startsFrom (fun entry : List UInt8 => entry.length + 1) 0 (items.map Prod.snd) ∧
      [0].intercalate (items.map Prod.snd) ++ (if data.getLast? = some 0 then [0] else []) =
        data ∧
      ∀ item ∈ items, 0 ∉ item.2 ∧ (StringsHeap.new data base).bytes item.1 = .ok item.2 ∧
        ∀ k ≤ item.2.length,
          (StringsHeap.new data base).bytes (item.1 + k) = .ok (item.2.drop k) := by
  obtain ⟨stop, hyields, hstop⟩ := StringsIter.yields hlen 0
  have hentries : (stringEntries data).map Prod.snd = pieces 0 data := startsFrom_snd
  refine ⟨stringEntries data, stop, hyields, hstop, ?_, ?_, ?_⟩
  · rw [hentries]
    rfl
  · rw [hentries]
    exact join_pieces 0 data
  · intro item hitem
    have hinside (k : Nat) (hk : k ≤ item.2.length) :
        (StringsHeap.new data base).bytes (item.1 + k) = .ok (item.2.drop k) :=
      (StringsHeap.new data base).bytes_inside hitem hk
    refine ⟨?_, hinside 0 (Nat.zero_le _), hinside⟩
    refine notMem_of_mem_pieces (l := data) ?_
    rw [← hentries]
    exact List.mem_map_of_mem hitem

example : stringEntries [0x00, 0x61, 0x62, 0x00, 0x63] =
    [(0, []), (1, [0x61, 0x62]), (4, [0x63])] := by decide

/-- An empty entry, two bytes and an entry that lacks its NUL. -/
theorem strings_tile_abc :
    ∃ items stop,
      Yields StringsIter.next (StringsHeap.new [0x00, 0x61, 0x62, 0x00, 0x63] 0x1000).iter items
        stop ∧
      [0].intercalate (items.map Prod.snd) ++ [] = [0x00, 0x61, 0x62, 0x00, 0x63] := by
  obtain ⟨items, stop, hyields, _, _, hjoin, _⟩ :=
    strings_tile [0x00, 0x61, 0x62, 0x00, 0x63] 0x1000 (by decide)
  exact ⟨items, stop, hyields, hjoin⟩

end Cildec
