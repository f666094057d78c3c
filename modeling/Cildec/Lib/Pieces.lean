import Cildec.Lib.Segments
import Mathlib.Data.List.Basic

/-!
# Pieces between separators

`pieces sep l` is the list cut at every `sep`. What stands after the last separator is a
piece only when it is not empty, so a separator at the end ends the last piece and opens
none.

* `pieces_of_ne_nil`: the first piece, and the pieces of the rest;
* `join_pieces`: the pieces joined again;
* `startsFrom_pieces`: a piece starts at its place in the list and ends at the next separator.
-/

namespace Wire

variable {α : Type} [DecidableEq α]

/-- Where `sep` stands first, or where the list ends. -/
def firstOf (sep : α) (l : List α) : Nat := (l.idxOf? sep).getD l.length

theorem firstOf_cons_self (sep : α) (l : List α) : firstOf sep (sep :: l) = 0 := by
  simp [firstOf, List.idxOf?_cons]

theorem firstOf_cons_ne {sep a : α} (h : a ≠ sep) (l : List α) :
    firstOf sep (a :: l) = firstOf sep l + 1 := by
  rw [firstOf, List.idxOf?_cons, if_neg (by simpa using h), firstOf]
  cases l.idxOf? sep <;> rfl

/-- What stands before the first `sep`. -/
def upTo (sep : α) (l : List α) : List α := l.take (firstOf sep l)

theorem upTo_cons_ne {sep a : α} (h : a ≠ sep) (l : List α) :
    upTo sep (a :: l) = a :: upTo sep l := by
  rw [upTo, firstOf_cons_ne h, List.take_succ_cons, upTo]

theorem upTo_length (sep : α) (l : List α) : (upTo sep l).length = firstOf sep l := by
  induction l with
  | nil => rfl
  | cons a l ih =>
      by_cases h : a = sep
      · subst h
        rw [upTo, firstOf_cons_self, List.take_zero, List.length_nil]
      · rw [upTo_cons_ne h, firstOf_cons_ne h, List.length_cons, ih]

theorem notMem_upTo (sep : α) (l : List α) : sep ∉ upTo sep l := by
  induction l with
  | nil => exact List.not_mem_nil
  | cons a l ih =>
      by_cases h : a = sep
      · subst h
        rw [upTo, firstOf_cons_self, List.take_zero]
        exact List.not_mem_nil
      · rw [upTo_cons_ne h, List.mem_cons, not_or]
        exact ⟨Ne.symm h, ih⟩

/-- A piece ends where the separator stands behind it. -/
theorem upTo_append {sep : α} {l : List α} (h : sep ∉ l) (rest : List α) :
    upTo sep (l ++ sep :: rest) = l := by
  induction l with
  | nil => rw [List.nil_append, upTo, firstOf_cons_self, List.take_zero]
  | cons a l ih =>
      rw [List.mem_cons, not_or] at h
      rw [List.cons_append, upTo_cons_ne (Ne.symm h.1), ih h.2]

/-- From inside the first piece on, what is left of it comes first. -/
theorem upTo_drop {sep : α} {l : List α} {k : Nat} (h : k ≤ firstOf sep l) :
    upTo sep (l.drop k) = (upTo sep l).drop k := by
  induction k generalizing l with
  | zero => rfl
  | succ k ih =>
      cases l with
      | nil => rfl
      | cons a l =>
          by_cases ha : a = sep
          · rw [ha, firstOf_cons_self] at h
            omega
          · rw [firstOf_cons_ne ha] at h
            rw [upTo_cons_ne ha, List.drop_succ_cons, List.drop_succ_cons]
            exact ih (by omega)

/-- The list cut at every `sep`. -/
def pieces (sep : α) : List α → List (List α)
  | [] => []
  | a :: l =>
      if a = sep then [] :: pieces sep l
      else
        match pieces sep l with
        | [] => [[a]]
        | p :: ps => (a :: p) :: ps

/-- The pieces one after another. -/
theorem pieces_of_ne_nil {sep : α} {l : List α} (h : l ≠ []) :
    pieces sep l = upTo sep l :: pieces sep (l.drop (firstOf sep l + 1)) := by
  induction l with
  | nil => exact absurd rfl h
  | cons a l ih =>
      by_cases ha : a = sep
      · rw [pieces, if_pos ha, ha, upTo, firstOf_cons_self]
        rfl
      · rw [pieces, if_neg ha, upTo_cons_ne ha, firstOf_cons_ne ha, List.drop_succ_cons]
        cases l with
        | nil => rfl
        | cons b l => rw [ih (List.cons_ne_nil b l)]

theorem pieces_ne_nil (sep : α) {l : List α} (h : l ≠ []) : pieces sep l ≠ [] := by
  rw [pieces_of_ne_nil h]
  exact List.cons_ne_nil _ _

/-- No piece holds the separator. -/
theorem notMem_of_mem_pieces {sep : α} {l p : List α} (h : p ∈ pieces sep l) : sep ∉ p := by
  induction hn : l.length using Nat.strong_induction_on generalizing l with
  | _ n ih =>
      cases l with
      | nil => cases h
      | cons a l =>
          rw [pieces_of_ne_nil (List.cons_ne_nil a l), List.mem_cons] at h
          rcases h with rfl | h
          · exact notMem_upTo sep _
          · rw [List.length_cons] at hn
            refine ih _ ?_ h rfl
            rw [List.drop_succ_cons, List.length_drop]
            omega

/-- The pieces joined by the separator, and a separator where the list ends in one. -/
theorem join_pieces (sep : α) (l : List α) :
    [sep].intercalate (pieces sep l) ++ (if l.getLast? = some sep then [sep] else []) = l := by
  induction l with
  | nil => rfl
  | cons a l ih =>
      cases l with
      | nil =>
          -- a separator opens a piece, any other element joins the first one
          by_cases ha : a = sep
          · simp [pieces, ha, List.intercalate]
          · simp [pieces, ha, List.intercalate]
      | cons b l =>
          obtain ⟨p, ps, hps⟩ := List.exists_cons_of_ne_nil
            (pieces_ne_nil sep (List.cons_ne_nil b l))
          rw [List.getLast?_cons_cons]
          rw [hps] at ih
          by_cases ha : a = sep
          · rw [pieces, if_pos ha, hps, List.intercalate_cons_cons, List.append_assoc,
              List.append_assoc, ih, ha]
            rfl
          · rw [pieces, if_neg ha, hps]
            have hcons : [sep].intercalate ((a :: p) :: ps) = a :: [sep].intercalate (p :: ps) := by
              cases ps <;> simp [List.intercalate]
            simp only [hcons, List.cons_append, ih]

/-- A piece is what stands before the next separator from its start on. -/
theorem startsFrom_pieces {sep : α} {l : List α} {start : Nat} {item : Nat × List α}
    (h : item ∈ startsFrom (fun p : List α => p.length + 1) start (pieces sep l)) :
    ∃ k, item.1 = start + k ∧ k < l.length ∧ item.2 = upTo sep (l.drop k) := by
  induction hn : l.length using Nat.strong_induction_on generalizing l start with
  | _ n ih =>
      cases l with
      | nil => cases h
      | cons a l =>
          rw [pieces_of_ne_nil (List.cons_ne_nil a l), startsFrom, List.mem_cons,
            upTo_length] at h
          rcases h with rfl | h
          -- the first piece starts where the list does
          · refine ⟨0, rfl, ?_, rfl⟩
            rw [← hn]
            exact Nat.zero_lt_succ _
          · rw [List.length_cons] at hn
            have hlen : ((a :: l).drop (firstOf sep (a :: l) + 1)).length < n := by
              rw [List.drop_succ_cons, List.length_drop]
              omega
            obtain ⟨k, hk, hlt, hpiece⟩ := ih _ hlen h rfl
            refine ⟨firstOf sep (a :: l) + 1 + k, ?_, ?_, ?_⟩
            · rw [hk, Nat.add_assoc]
            · rw [List.length_drop, List.length_cons] at hlt
              omega
            · rw [hpiece, List.drop_drop]

end Wire
