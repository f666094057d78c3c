import Cildec.Lib.Narrow
import Cildec.Tables.Lists

/-!
# The searches end

The loops of the lookups are given a number of rounds. Whatever the tables hold, that number
is enough: a search halves an interval of rows and a run advances by a row
(`rowsWithKey_finishes`, `ownerOfList_finishes`).
-/

namespace Cildec

open Wire

/-- Every fault a computation can end with is one of `A`. -/
def Faults {α : Type} (A : Fault → Prop) (x : Checked α) : Prop := ∀ f, x = .error f → A f

section Faults

variable {A : Fault → Prop} {α β : Type}

theorem Faults.ok (a : α) : Faults A (.ok a : Checked α) := by
  intro f h
  cases h

theorem Faults.ofResult (hA : ∀ e, A (.error e)) (x : Result α) :
    Faults A (Checked.ofResult x) := by
  intro f h
  cases x with
  | ok a => cases h
  | error e =>
      cases h
      exact hA e

theorem Faults.bind {x : Checked α} {f : α → Checked β} (hx : Faults A x)
    (hf : ∀ a, x = .ok a → Faults A (f a)) : Faults A (x >>= f) := by
  cases x with
  | ok a => exact hf a rfl
  | error e =>
      intro f' h
      cases h
      exact hx e rfl

end Faults

/-- The loop has not used up its rounds. -/
abbrev Finishes {α : Type} (x : Checked α) : Prop := Faults (fun f => f ≠ .rounds) x

theorem Finishes.ofResult {α : Type} (x : Result α) : Finishes (Checked.ofResult x) := by
  refine Faults.ofResult (fun e h => ?_) x
  cases h

theorem Finishes.overflow {α : Type} : Finishes (.error .overflow : Checked α) := by
  intro f hf h
  cases hf
  cases h

theorem u32Add_finishes (a b : Nat) : Finishes (u32Add a b) := by
  unfold u32Add
  split
  · exact Faults.ok _
  · exact Finishes.overflow

theorem u32Sub_finishes (a b : Nat) : Finishes (u32Sub a b) := by
  unfold u32Sub
  split
  · exact Faults.ok _
  · exact Finishes.overflow

theorem u32Add_eq {a b c : Nat} (h : u32Add a b = .ok c) : c = a + b := by
  unfold u32Add at h
  split at h <;> cases h
  rfl

theorem u32Sub_eq {a b c : Nat} (h : u32Sub a b = .ok c) : b ≤ a ∧ c = a - b := by
  unfold u32Sub at h
  split at h
  · rename_i hle
    cases h
    exact ⟨hle, rfl⟩
  · cases h

namespace Tables

variable (t : Tables) (table : TableId) (column key : Nat)

theorem lowerBound_finishes : ∀ rounds lo hi, hi - lo < rounds →
    Finishes (t.lowerBound table column key rounds lo hi)
  | 0, _, _, h => absurd h (Nat.not_lt_zero _)
  | rounds + 1, lo, hi, h => by
      unfold lowerBound
      by_cases hlt : lo < hi
      · rw [if_pos hlt]
        refine (u32Sub_finishes _ _).bind fun gap hgap => ?_
        refine (u32Add_finishes _ _).bind fun mid hmid => ?_
        obtain ⟨_, rfl⟩ := u32Sub_eq hgap
        obtain rfl := u32Add_eq hmid
        refine (Finishes.ofResult _).bind fun value _ => ?_
        by_cases hless : value < key
        · rw [if_pos hless]
          refine (u32Add_finishes _ _).bind fun next hnext => ?_
          obtain rfl := u32Add_eq hnext
          exact lowerBound_finishes rounds _ _ (by omega)
        · rw [if_neg hless]
          exact lowerBound_finishes rounds _ _ (by omega)
      · rw [if_neg hlt]
        exact Faults.ok lo

/-- The search stays to the right of where it started. -/
theorem lowerBound_ge : ∀ rounds lo hi {found : Nat},
    t.lowerBound table column key rounds lo hi = .ok found → lo ≤ found
  | 0, _, _, _, h => by cases h
  | rounds + 1, lo, hi, found, h => by
      unfold lowerBound at h
      by_cases hlt : lo < hi
      · rw [if_pos hlt] at h
        obtain ⟨gap, _, h⟩ := ok_bind_iff.mp h
        obtain ⟨mid, hmid, h⟩ := ok_bind_iff.mp h
        obtain ⟨value, _, h⟩ := ok_bind_iff.mp h
        obtain rfl := u32Add_eq hmid
        by_cases hless : value < key
        · rw [if_pos hless] at h
          obtain ⟨next, hnext, h⟩ := ok_bind_iff.mp h
          obtain rfl := u32Add_eq hnext
          have := lowerBound_ge rounds _ _ h
          omega
        · rw [if_neg hless] at h
          exact lowerBound_ge rounds _ _ h
      · rw [if_neg hlt] at h
        cases h
        exact Nat.le_refl _

theorem keyRun_finishes : ∀ rounds rid out, t.rowCount table + 1 - rid < rounds →
    Finishes (t.keyRun table column key rounds rid out)
  | 0, _, _, h => absurd h (Nat.not_lt_zero _)
  | rounds + 1, rid, out, h => by
      unfold keyRun
      by_cases hle : rid ≤ t.rowCount table
      · rw [if_pos hle]
        refine (Finishes.ofResult _).bind fun value _ => ?_
        by_cases hkey : value = key
        · rw [if_pos hkey]
          refine (u32Add_finishes _ _).bind fun next hnext => ?_
          obtain rfl := u32Add_eq hnext
          exact keyRun_finishes rounds _ _ (by omega)
        · rw [if_neg hkey]
          exact Faults.ok out
      · rw [if_neg hle]
        exact Faults.ok out

theorem keyScan_finishes : ∀ rids out, Finishes (t.keyScan table column key rids out)
  | [], out => Faults.ok out
  | _ :: rids, _ => (Finishes.ofResult _).bind fun _ _ => keyScan_finishes rids _

theorem rowsWithKey_finishes : Finishes (t.rowsWithKey table key) := by
  unfold rowsWithKey
  cases sortKeyColumn table with
  | none => exact Finishes.ofResult (.error _)
  | some column =>
      simp only
      split
      · exact Faults.ok []
      split
      · refine (u32Add_finishes _ _).bind fun hi hhi => ?_
        obtain rfl := u32Add_eq hhi
        refine (t.lowerBound_finishes table column key _ _ _ (by omega)).bind fun lo hlo => ?_
        have hge := t.lowerBound_ge table column key _ _ _ hlo
        exact t.keyRun_finishes table column key _ _ _ (by omega)
      · exact t.keyScan_finishes table column key _ _

variable (owner target : TableId) (member : Nat)

theorem ownerSearch_finishes : ∀ rounds lo hi candidate, hi + 1 - lo < rounds →
    Finishes (t.ownerSearch owner column member rounds lo hi candidate)
  | 0, _, _, _, h => absurd h (Nat.not_lt_zero _)
  | rounds + 1, lo, hi, candidate, h => by
      unfold ownerSearch
      by_cases hle : lo ≤ hi
      · rw [if_pos hle]
        refine (u32Sub_finishes _ _).bind fun gap hgap => ?_
        refine (u32Add_finishes _ _).bind fun mid hmid => ?_
        obtain ⟨_, rfl⟩ := u32Sub_eq hgap
        obtain rfl := u32Add_eq hmid
        refine (Finishes.ofResult _).bind fun value _ => ?_
        by_cases hbefore : value ≤ member
        · rw [if_pos hbefore]
          refine (u32Add_finishes _ _).bind fun next hnext => ?_
          obtain rfl := u32Add_eq hnext
          exact ownerSearch_finishes rounds _ _ _ (by omega)
        · rw [if_neg hbefore]
          by_cases hone : lo + (hi - lo) / 2 = 1
          · rw [if_pos hone]
            exact Faults.ok candidate
          · rw [if_neg hone]
            refine (u32Sub_finishes _ _).bind fun next hnext => ?_
            obtain ⟨_, rfl⟩ := u32Sub_eq hnext
            exact ownerSearch_finishes rounds _ _ _ (by omega)
      · rw [if_neg hle]
        exact Faults.ok candidate

theorem ownerScan_finishes : ∀ rids, Finishes (t.ownerScan owner column target member rids)
  | [] => Faults.ok none
  | rid :: rids => (Finishes.ofResult _).bind fun range _ => by
      by_cases hcontains : range.contains member = true
      · rw [if_pos hcontains]
        exact Faults.ok (some rid)
      · rw [if_neg hcontains]
        exact ownerScan_finishes rids

theorem ownerOfList_finishes : Finishes (t.ownerOfList owner column target member) := by
  unfold ownerOfList
  simp only
  split
  · exact Faults.ok none
  · refine (t.ownerSearch_finishes column owner member _ _ _ _ (by omega)).bind
      fun candidate _ => ?_
    refine Faults.bind ?_ fun hit _ => ?_
    · unfold ownerCandidate
      split
      · exact Faults.ok false
      · exact (Finishes.ofResult _).bind fun range _ => Faults.ok _
    · split
      · exact Faults.ok (some candidate)
      · exact t.ownerScan_finishes column owner target member _

end Tables

end Cildec
