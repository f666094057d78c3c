import Cildec.Display.Text
import Cildec.Heaps
import Cildec.Lib.Segments
import Mathlib.Data.List.Forall2

/-!
# GUIDs (`src/heaps.rs`)

`#GUID` is an array of sixteen-byte blocks, which are counted from one; what is left at its end
is no GUID.

* `GuidHeap.guids_exact`: the GUIDs of a heap, what each index gives, and that different ones
  have different texts.
-/

namespace Cildec

open Wire

/-- A 16-byte GUID. -/
structure Guid where
  bytes : List UInt8
  length_eq : bytes.length = 16
  deriving DecidableEq

namespace Guid

/-- `{:02x}` of a byte. -/
def hexByte (b : UInt8) : String := hexPadded 2 b.toNat

/-- Which bytes the groups of the text name: the first three are little-endian integers. -/
def groups : List (List Nat) :=
  [[3, 2, 1, 0], [5, 4], [7, 6], [8, 9], [10, 11, 12, 13, 14, 15]]

/-- `Display` of a GUID. -/
def display (g : Guid) : String :=
  joined "-" (groups.map fun group => joined "" (group.map fun i => hexByte (g.bytes.getD i 0)))

/-! ## Texts -/

theorem append_inj {s s' t t' : String} (hlen : s.length = s'.length) (h : s ++ t = s' ++ t') :
    s = s' ∧ t = t' := by
  have hlist := congrArg String.toList h
  rw [String.toList_append, String.toList_append] at hlist
  have hlen' : s.toList.length = s'.toList.length := by
    rw [String.length_toList, String.length_toList, hlen]
  obtain ⟨hs, ht⟩ := List.append_inj hlist hlen'
  exact ⟨String.toList_inj.mp hs, String.toList_inj.mp ht⟩

/-- Parts of the same lengths are told apart when they are joined. -/
theorem joined_inj {separator : String} {parts parts' : List String}
    (hlen : List.Forall₂ (fun part part' => part.length = part'.length) parts parts')
    (h : joined separator parts = joined separator parts') : parts = parts' := by
  induction hlen with
  | nil => rfl
  | cons hpart hparts ih =>
      cases hparts with
      | nil => exact congrArg (fun part => [part]) h
      | cons hnext hrest =>
          simp only [joined, String.append_assoc] at h
          obtain ⟨hfirst, htail⟩ := append_inj hpart h
          obtain ⟨_, hrest⟩ := append_inj rfl htail
          rw [hfirst, ih hrest]

/-- A byte has two digits. -/
theorem hexByte_toList (b : UInt8) :
    (hexByte b).toList = [Nat.digitChar (b.toNat / 16), Nat.digitChar (b.toNat % 16)] := by
  have hall : ∀ n < 256, (hexPadded 2 n).toList =
      [Nat.digitChar (n / 16), Nat.digitChar (n % 16)] := by
    decide +kernel
  exact hall b.toNat b.toNat_lt

theorem hexByte_length (b : UInt8) : (hexByte b).length = 2 := by
  rw [← String.length_toList, hexByte_toList]
  rfl

theorem hexByte_inj {b b' : UInt8} (h : hexByte b = hexByte b') : b = b' := by
  have hdigit : ∀ n < 16, ∀ k < 16, Nat.digitChar n = Nat.digitChar k → n = k := by
    decide
  have hlist := congrArg String.toList h
  rw [hexByte_toList, hexByte_toList, List.cons.injEq, List.cons.injEq] at hlist
  obtain ⟨hhigh, hlow, _⟩ := hlist
  have hb := b.toNat_lt
  have hb' := b'.toNat_lt
  have hhigh := hdigit _ (by omega) _ (by omega) hhigh
  have hlow := hdigit _ (by omega) _ (by omega) hlow
  apply UInt8.toNat_inj.mp
  omega

/-- The text of a group of bytes. -/
theorem length_group (f : Nat → UInt8) (group : List Nat) :
    (joined "" (group.map fun i => hexByte (f i))).length = 2 * group.length := by
  induction group with
  | nil => rfl
  | cons i group ih =>
      cases group with
      | nil => exact hexByte_length _
      | cons k group =>
          show (hexByte (f i) ++ "" ++
            joined "" ((k :: group).map fun i => hexByte (f i))).length = _
          rw [String.length_append, String.append_empty, hexByte_length, ih,
            List.length_cons (a := i)]
          omega

/-- A GUID is determined by its text. -/
theorem display_inj {g g' : Guid} (h : g.display = g'.display) : g = g' := by
  have hgroups : ∀ group ∈ groups, ∀ i ∈ group, g.bytes.getD i 0 = g'.bytes.getD i 0 := by
    have hparts := joined_inj (List.forall₂_map_left_iff.mpr (List.forall₂_map_right_iff.mpr
      (List.forall₂_same.mpr fun group _ => by rw [length_group, length_group]))) h
    intro group hgroup i hi
    have hgroup' := List.map_inj_left.mp hparts group hgroup
    have hbytes := joined_inj (List.forall₂_map_left_iff.mpr (List.forall₂_map_right_iff.mpr
      (List.forall₂_same.mpr fun i _ => by rw [hexByte_length, hexByte_length]))) hgroup'
    exact hexByte_inj (List.map_inj_left.mp hbytes i hi)
  -- every byte stands in one of the groups
  have hall : ∀ i < 16, ∃ group ∈ groups, i ∈ group := by
    decide
  obtain ⟨bytes, hlen⟩ := g
  obtain ⟨bytes', hlen'⟩ := g'
  rw [Guid.mk.injEq]
  apply List.ext_getElem (hlen.trans hlen'.symm)
  intro i hi hi'
  obtain ⟨group, hgroup, hmem⟩ := hall i (hlen ▸ hi)
  have hget := hgroups group hgroup i hmem
  rwa [List.getD_eq_getElem _ _ hi, List.getD_eq_getElem _ _ hi'] at hget

end Guid

/-! ## The heap -/

namespace GuidHeap

/-- What the iterator yields: every index that holds a GUID, up to the count as a `u32`. -/
def iter (heap : GuidHeap) : List (Nat × List UInt8) :=
  (List.range' 1 (heap.count % 2 ^ 32)).filterMap fun index =>
    (heap.get index).toOption.map fun bytes => (index, bytes)

/-- Every heap is an array of GUIDs, and less than one behind them. -/
theorem exists_guids (data : List UInt8) : ∃ gs : List Guid, ∃ rest,
    data = gs.flatMap Guid.bytes ++ rest ∧ rest.length < 16 := by
  have hle : data.length / 16 * 16 ≤ data.length := Nat.div_mul_le_self _ _
  have hchunk (i : Nat) (hi : i < data.length / 16) :
      ((data.drop (i * 16)).take 16).length = 16 := by
    rw [List.length_take, List.length_drop]
    omega
  let gs := (List.range (data.length / 16)).pmap
    (fun i hi => (⟨(data.drop (i * 16)).take 16, hchunk i hi⟩ : Guid))
    fun i hi => List.mem_range.mp hi
  refine ⟨gs, data.drop (data.length / 16 * 16), ?_, ?_⟩
  · have hbytes : gs.flatMap Guid.bytes =
        (List.range (data.length / 16)).flatMap fun i => (data.drop (i * 16)).take 16 := by
      rw [List.flatMap_def, List.flatMap_def, List.map_pmap]
      exact congrArg _ (List.pmap_eq_map _)
    rw [hbytes, flatMap_chunks, List.take_append_drop]
  · rw [List.length_drop]
    omega

theorem length_guids (gs : List Guid) : (gs.flatMap Guid.bytes).length = gs.length * 16 :=
  length_flatMap_const fun g _ => g.length_eq

/-- An index below `u32::MAX` stands for a block that starts within `usize`. -/
theorem get_succ {heap : GuidHeap} {index : Nat} (hindex : index < u32Max) :
    heap.get (index + 1) =
      ((slice? heap.span.data (index * 16) (index * 16 + 16)).elim
        (.error (Error.new .outOfRange (satAdd heap.span.base (index * 16)) "#GUID")) .ok) := by
  have hmul : checkedMul (index + 1 - 1) 16 = some (index * 16) := by
    have hsmall : index * 16 ≤ usizeMax := by
      rw [u32Max] at hindex
      rw [usizeMax]
      omega
    rw [Nat.add_sub_cancel, checkedMul, if_pos hsmall]
  rw [get, if_neg (Nat.succ_ne_zero _), hmul]
  show _ = (slice? heap.span.data (index * 16) (index * 16 + 16)).elim _ _
  cases h : slice? heap.span.data (index * 16) (index * 16 + 16) with
  | none => simp only [h, Option.elim_none]
  | some bytes => simp only [h, Option.elim_some]

theorem get_written {gs : List Guid} {rest : List UInt8} (base : Nat) {index : Nat} {g : Guid}
    (hindex : index < u32Max) (hg : gs[index]? = some g) :
    (new (gs.flatMap Guid.bytes ++ rest) base).get (index + 1) = .ok g.bytes := by
  obtain ⟨pre, post, hsplit, hpre⟩ := flatMap_split_const (fun g _ => Guid.length_eq g) hg
  have hslice := slice?_append pre g.bytes (post ++ rest)
  rw [hpre, g.length_eq, ← List.append_assoc, ← List.append_assoc, List.append_assoc pre,
    ← hsplit] at hslice
  rw [get_succ hindex]
  show (slice? (gs.flatMap Guid.bytes ++ rest) (index * 16) (index * 16 + 16)).elim _ _ = _
  rw [hslice]
  rfl

theorem get_behind {gs : List Guid} {rest : List UInt8} (base : Nat) (hrest : rest.length < 16)
    {index : Nat} (hindex : index < u32Max) (hge : gs.length ≤ index) :
    (new (gs.flatMap Guid.bytes ++ rest) base).get (index + 1) =
      .error (Error.new .outOfRange (satAdd base (index * 16)) "#GUID") := by
  have hslice : slice? (gs.flatMap Guid.bytes ++ rest) (index * 16) (index * 16 + 16) = none := by
    rw [slice?, if_neg]
    rw [List.length_append, length_guids]
    omega
  rw [get_succ hindex]
  show (slice? (gs.flatMap Guid.bytes ++ rest) (index * 16) (index * 16 + 16)).elim _ _ = _
  rw [hslice]
  rfl

theorem count_written (gs : List Guid) {rest : List UInt8} (base : Nat)
    (hrest : rest.length < 16) :
    (new (gs.flatMap Guid.bytes ++ rest) base).count = gs.length := by
  show (gs.flatMap Guid.bytes ++ rest).length / 16 = _
  rw [List.length_append, length_guids]
  omega

/-- The iterator yields the GUIDs in order, counted from one. -/
theorem iter_written (gs : List Guid) {rest : List UInt8} (base : Nat) (hrest : rest.length < 16)
    (hshort : gs.length < 2 ^ 32) :
    (new (gs.flatMap Guid.bytes ++ rest) base).iter =
      (List.range' 1 gs.length).zip (gs.map Guid.bytes) := by
  have hget : ∀ k ≤ gs.length,
      (List.range' 1 k).filterMap (fun index =>
        ((new (gs.flatMap Guid.bytes ++ rest) base).get index).toOption.map
          fun bytes => (index, bytes)) =
        (List.range' 1 k).zip ((gs.take k).map Guid.bytes) := by
    intro k hk
    induction k with
    | zero => rfl
    | succ k ih =>
        have hlt : k < gs.length := hk
        have hindex : k < u32Max := by
          rw [u32Max]
          omega
        have hlast := @get_written gs rest base k gs[k] hindex (List.getElem?_eq_getElem hlt)
        have hlen : (List.range' 1 k).length = ((gs.take k).map Guid.bytes).length := by
          rw [List.length_range', List.length_map, List.length_take_of_le (Nat.le_of_lt hlt)]
        rw [List.range'_1_concat, List.filterMap_append, ih (Nat.le_of_lt hlt),
          List.take_succ_eq_append_getElem hlt, List.map_append, List.zip_append hlen,
          Nat.add_comm 1 k]
        congr 1
        rw [List.filterMap_cons, hlast]
        rfl
  rw [iter, count_written gs base hrest, Nat.mod_eq_of_lt hshort, hget _ (Nat.le_refl _),
    List.take_length]

/-- Every heap is an array of GUIDs with less than one behind them; and of such a heap, as many
are counted as there are, an index gives the GUID that stands there or names the offset where
one would start, the iterator yields them all in order, and different GUIDs have different
texts. -/
theorem guids_exact (base : Nat) :
    (∀ data : List UInt8, ∃ gs : List Guid, ∃ rest,
      data = gs.flatMap Guid.bytes ++ rest ∧ rest.length < 16) ∧
    ∀ (gs : List Guid) (rest : List UInt8), rest.length < 16 →
      (new (gs.flatMap Guid.bytes ++ rest) base).count = gs.length ∧
      (new (gs.flatMap Guid.bytes ++ rest) base).get 0 =
        .error (Error.new .outOfRange base "#GUID") ∧
      (∀ index < u32Max, (∀ g, gs[index]? = some g →
          (new (gs.flatMap Guid.bytes ++ rest) base).get (index + 1) = .ok g.bytes) ∧
        (gs.length ≤ index → (new (gs.flatMap Guid.bytes ++ rest) base).get (index + 1) =
          .error (Error.new .outOfRange (satAdd base (index * 16)) "#GUID"))) ∧
      (gs.length < 2 ^ 32 → (new (gs.flatMap Guid.bytes ++ rest) base).iter =
        (List.range' 1 gs.length).zip (gs.map Guid.bytes)) ∧
      ∀ g ∈ gs, ∀ g' ∈ gs, g.display = g'.display → g = g' := by
  refine ⟨exists_guids, fun gs rest hrest => ⟨count_written gs base hrest, rfl,
    fun index hindex => ⟨fun g hg => get_written base hindex hg,
      fun hge => get_behind base hrest hindex hge⟩, iter_written gs base hrest, ?_⟩⟩
  intro g _ g' _ h
  exact Guid.display_inj h

/-- A GUID of the bytes from `00` to `0f`. -/
def stepped : Guid := ⟨[0, 1, 2, 3, 4, 5, 6, 7, 8, 9, 10, 11, 12, 13, 14, 15], rfl⟩

example : stepped.display = "03020100-0504-0706-0809-0a0b0c0d0e0f" := by
  decide +kernel

/-- Behind one GUID there is no second, only three bytes of one. -/
theorem guids_exact_one : (new (stepped.bytes ++ [7, 7, 7]) 32).get 2 =
    .error (Error.new .outOfRange 48 "#GUID") :=
  (((guids_exact 32).2 [stepped] [7, 7, 7] (by decide)).2.2.1 1 (by decide)).2 (by decide)

end GuidHeap

end Cildec
