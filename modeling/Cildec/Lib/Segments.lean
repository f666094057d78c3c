import Mathlib.Algebra.BigOperators.Group.List.Basic
import Mathlib.Algebra.Ring.Nat
import Mathlib.Data.List.Basic

/-!
# Consecutive segments

Segments named by a list of keys are laid one after another; `offsetOf size ks k`
is where the segment of `k` starts. Segments of different keys never overlap, and
the concatenation of the blocks `f k` holds `f k` at its offset.
-/

namespace Wire

variable {κ α : Type}

section Offset

variable [DecidableEq κ]

/-- The total size of the segments before `k`. -/
def offsetOf (size : κ → Nat) : List κ → κ → Nat
  | [], _ => 0
  | u :: us, k => if u = k then 0 else size u + offsetOf size us k

@[simp] theorem offsetOf_self (size : κ → Nat) (k : κ) (ks : List κ) :
    offsetOf size (k :: ks) k = 0 := if_pos rfl

theorem offsetOf_cons_ne {size : κ → Nat} {u k : κ} (ks : List κ) (h : u ≠ k) :
    offsetOf size (u :: ks) k = size u + offsetOf size ks k := if_neg h

theorem offsetOf_congr {size size' : κ → Nat} {ks : List κ} {k : κ}
    (h : ∀ u ∈ ks, size u = size' u) : offsetOf size ks k = offsetOf size' ks k := by
  induction ks with
  | nil => rfl
  | cons u us ih =>
      have hu := h u List.mem_cons_self
      have hus := ih fun x hx => h x (List.mem_cons_of_mem _ hx)
      simp only [offsetOf, hu, hus]

/-- A segment ends inside the whole. -/
theorem offsetOf_add_size_le (size : κ → Nat) {ks : List κ} {k : κ} (h : k ∈ ks) :
    offsetOf size ks k + size k ≤ (ks.map size).sum := by
  induction ks with
  | nil => cases h
  | cons u us ih =>
      rw [List.map_cons, List.sum_cons]
      by_cases huk : u = k
      · subst huk
        rw [offsetOf_self]
        omega
      · rw [offsetOf_cons_ne us huk]
        have hmem : k ∈ us := by
          rcases List.mem_cons.mp h with h' | h'
          · exact absurd h'.symm huk
          · exact h'
        have := ih hmem
        omega

/-- Segments of different keys do not overlap: the one that comes first ends before
the other starts. -/
theorem offsetOf_disjoint (size : κ → Nat) {ks : List κ} {j k : κ} (hj : j ∈ ks)
    (hk : k ∈ ks) (hne : j ≠ k) :
    offsetOf size ks j + size j ≤ offsetOf size ks k ∨
      offsetOf size ks k + size k ≤ offsetOf size ks j := by
  induction ks with
  | nil => cases hj
  | cons u us ih =>
      by_cases huj : u = j
      · subst huj
        rw [offsetOf_self, offsetOf_cons_ne us hne]
        exact .inl (by omega)
      · by_cases huk : u = k
        · subst huk
          rw [offsetOf_self, offsetOf_cons_ne us huj]
          exact .inr (by omega)
        · rw [offsetOf_cons_ne us huj, offsetOf_cons_ne us huk]
          have hj' := List.mem_of_ne_of_mem (Ne.symm huj) hj
          have hk' := List.mem_of_ne_of_mem (Ne.symm huk) hk
          rcases ih hj' hk' with h | h
          · exact .inl (by omega)
          · exact .inr (by omega)

/-- A segment starts after the segments before it in a split of the keys. -/
theorem offsetOf_split {size : κ → Nat} {ks before after : List κ} {k : κ} (hk : ks.Nodup)
    (hsplit : ks = before ++ k :: after) : offsetOf size ks k = (before.map size).sum := by
  subst hsplit
  induction before with
  | nil => simp
  | cons u us ih =>
      rw [List.cons_append, List.nodup_cons] at hk
      have hne : u ≠ k := fun he => hk.1 (by simp [he])
      rw [List.cons_append, offsetOf_cons_ne _ hne, ih hk.2, List.map_cons, List.sum_cons]

/-- A segment later in a split starts after the segment at the split ends. -/
theorem offsetOf_after_le (size : κ → Nat) {before after : List κ} {k j : κ}
    (hk : (before ++ k :: after).Nodup) (hj : j ∈ after) :
    (before.map size).sum + size k ≤ offsetOf size (before ++ k :: after) j := by
  induction before with
  | nil =>
      have hne : k ≠ j := by
        rintro rfl
        exact (List.nodup_cons.mp hk).1 hj
      rw [List.nil_append, offsetOf_cons_ne _ hne]
      simp
  | cons u us ih =>
      rw [List.cons_append, List.nodup_cons] at hk
      have hne : u ≠ j := by
        rintro rfl
        exact hk.1 (by simp [hj])
      have htail := ih hk.2
      rw [List.cons_append, offsetOf_cons_ne _ hne, List.map_cons, List.sum_cons]
      omega

/-- The concatenation of blocks holds the block of `k` at its offset. -/
theorem flatMap_split (f : κ → List α) {ks : List κ} {k : κ} (h : k ∈ ks) :
    ∃ pre post, ks.flatMap f = pre ++ (f k ++ post) ∧
      pre.length = offsetOf (fun u => (f u).length) ks k := by
  induction ks with
  | nil => cases h
  | cons u us ih =>
      by_cases huk : u = k
      · subst huk
        exact ⟨[], us.flatMap f, by simp, by simp⟩
      · have hmem := List.mem_of_ne_of_mem (Ne.symm huk) h
        obtain ⟨pre, post, hsplit, hlen⟩ := ih hmem
        refine ⟨f u ++ pre, post, ?_, ?_⟩
        · rw [List.flatMap_cons, hsplit, List.append_assoc]
        · rw [List.length_append, hlen, offsetOf_cons_ne us huk]

end Offset

/-- A position between the first segment and the last lies in one of them. -/
theorem exists_segment {size : κ → Nat} {ks : List κ} {start n : Nat} (hstart : start ≤ n)
    (hend : n < start + (ks.map size).sum) :
    ∃ before k after, ks = before ++ k :: after ∧ start + (before.map size).sum ≤ n ∧
      n < start + (before.map size).sum + size k := by
  induction ks generalizing start with
  | nil =>
      simp at hend
      omega
  | cons u us ih =>
      rw [List.map_cons, List.sum_cons] at hend
      by_cases hu : n < start + size u
      · exact ⟨[], u, us, rfl, by simpa using hstart, by simpa using hu⟩
      · obtain ⟨before, k, after, rfl, hlo, hhi⟩ := @ih (start + size u) (by omega) (by omega)
        refine ⟨u :: before, k, after, rfl, ?_, ?_⟩ <;> rw [List.map_cons, List.sum_cons] <;> omega

/-- The concatenation of blocks of one size holds block `i` at `i * size`. -/
theorem flatMap_split_const {f : κ → List α} {size : Nat} {ks : List κ}
    (hsize : ∀ k ∈ ks, (f k).length = size) {i : Nat} {k : κ} (h : ks[i]? = some k) :
    ∃ pre post, ks.flatMap f = pre ++ (f k ++ post) ∧ pre.length = i * size := by
  induction ks generalizing i with
  | nil => cases h
  | cons u us ih =>
      cases i with
      | zero =>
          cases h
          exact ⟨[], us.flatMap f, by simp, by simp⟩
      | succ i =>
          have htail : us[i]? = some k := h
          obtain ⟨pre, post, hsplit, hlen⟩ :=
            ih (fun x hx => hsize x (List.mem_cons_of_mem _ hx)) htail
          refine ⟨f u ++ pre, post, ?_, ?_⟩
          · rw [List.flatMap_cons, hsplit, List.append_assoc]
          · rw [List.length_append, hlen, hsize u List.mem_cons_self, Nat.succ_mul]
            omega

theorem length_flatMap_const {f : κ → List α} {size : Nat} {ks : List κ}
    (hsize : ∀ k ∈ ks, (f k).length = size) : (ks.flatMap f).length = ks.length * size := by
  rw [List.length_flatMap, List.map_congr_left hsize, List.map_const', List.sum_replicate]
  rfl

/-! ## Segments with their offsets -/

/-- The segments of a list, cut out where they start, are what they are segments of. -/
theorem flatMap_segments [DecidableEq κ] {size : κ → Nat} {l : List α} {start : Nat} {ks : List κ}
    (hks : ks.Nodup) :
    (ks.flatMap fun k => (l.drop (start + offsetOf size ks k)).take (size k)) =
      (l.drop start).take (ks.map size).sum := by
  induction ks generalizing start with
  | nil => rfl
  | cons u us ih =>
      obtain ⟨hu, hus⟩ := List.nodup_cons.mp hks
      have hrest : (us.flatMap fun k => (l.drop (start + offsetOf size (u :: us) k)).take (size k)) =
          us.flatMap fun k => (l.drop (start + size u + offsetOf size us k)).take (size k) := by
        refine List.flatMap_congr fun k hk => ?_
        have hne : u ≠ k := fun he => hu (he ▸ hk)
        rw [offsetOf_cons_ne us hne, Nat.add_assoc]
      rw [List.flatMap_cons, hrest, ih hus, offsetOf_self, Nat.add_zero, List.map_cons,
        List.sum_cons, List.take_add, List.drop_drop]

/-- The chunks of a list, one after another. -/
theorem flatMap_chunks (l : List α) (size n : Nat) :
    ((List.range n).flatMap fun i => (l.drop (i * size)).take size) = l.take (n * size) := by
  induction n with
  | zero => rw [Nat.zero_mul, List.take_zero, List.range_zero, List.flatMap_nil]
  | succ n ih =>
      rw [List.range_succ, List.flatMap_append, ih, List.flatMap_singleton, Nat.succ_mul,
        List.take_add]

/-- Each element with the position its segment starts at, the first one at `start`. -/
def startsFrom (size : α → Nat) (start : Nat) : List α → List (Nat × α)
  | [] => []
  | a :: as => (start, a) :: startsFrom size (start + size a) as

theorem startsFrom_mem {size : α → Nat} {start offset : Nat} {a : α} {as : List α}
    (h : (offset, a) ∈ startsFrom size start as) : a ∈ as := by
  induction as generalizing start with
  | nil => cases h
  | cons u us ih =>
      rcases List.mem_cons.mp h with heq | htail
      · exact List.mem_cons.mpr (.inl (Prod.mk.inj heq).2)
      · exact List.mem_cons_of_mem _ (ih htail)

theorem startsFrom_snd {size : α → Nat} {start : Nat} {as : List α} :
    (startsFrom size start as).map Prod.snd = as := by
  induction as generalizing start with
  | nil => rfl
  | cons a as ih => rw [startsFrom, List.map_cons, ih]

theorem startsFrom_map {f : κ → α} {size : α → Nat} {start : Nat} {ks : List κ} :
    startsFrom size start (ks.map f) =
      (startsFrom (fun k => size (f k)) start ks).map fun entry => (entry.1, f entry.2) := by
  induction ks generalizing start with
  | nil => rfl
  | cons k ks ih => simp only [List.map_cons, startsFrom, ih]

/-- What stands before and after a segment in the concatenation. -/
theorem startsFrom_split {f : κ → List α} {start offset : Nat} {k : κ} {ks : List κ}
    (h : (offset, k) ∈ startsFrom (fun k => (f k).length) start ks) :
    ∃ pre post, ks.flatMap f = pre ++ (f k ++ post) ∧ offset = start + pre.length := by
  induction ks generalizing start with
  | nil => cases h
  | cons u us ih =>
      rcases List.mem_cons.mp h with heq | htail
      · obtain ⟨rfl, rfl⟩ := Prod.mk.inj heq
        exact ⟨[], us.flatMap f, by simp, by simp⟩
      · obtain ⟨pre, post, hsplit, rfl⟩ := ih htail
        refine ⟨f u ++ pre, post, ?_, ?_⟩
        · rw [List.flatMap_cons, hsplit, List.append_assoc]
        · rw [List.length_append, ← Nat.add_assoc]

end Wire
