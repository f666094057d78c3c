import Cildec.Lib.Search
import Cildec.Tables.Safety

/-!
# Sorted-table lookups (`src/tables/lookup.rs`)

A lookup runs in `Checked`, where a `u32` sum or difference that leaves its range is a
fault of its own: a lookup that returns a list has not overflowed. `rowsWithKey_eq` says
that the binary search and the scan both return the rows with the key, in order.
-/

namespace Cildec

open Wire

/-- How a lookup can stop: with an error of the crate, by leaving the range of `u32`, or
by running out of the rounds a loop was given. -/
inductive Fault where
  | error (e : Error)
  | overflow
  | rounds
  deriving DecidableEq, Repr

/-- A computation with checked `u32` arithmetic. -/
abbrev Checked (α : Type) := Except Fault α

/-- `?` on a `Result`. -/
def Checked.ofResult {α : Type} : Result α → Checked α
  | .ok a => .ok a
  | .error e => .error (.error e)

/-- `u32` addition. -/
def u32Add (a b : Nat) : Checked Nat :=
  if a + b < 2 ^ 32 then .ok (a + b) else .error .overflow

/-- `u32` subtraction. -/
def u32Sub (a b : Nat) : Checked Nat :=
  if b ≤ a then .ok (a - b) else .error .overflow

theorem u32Add_ok {a b : Nat} (h : a + b < 2 ^ 32) : u32Add a b = .ok (a + b) := if_pos h

theorem u32Sub_ok {a b : Nat} (h : b ≤ a) : u32Sub a b = .ok (a - b) := if_pos h

namespace Tables

/-! ## The lookup -/

/-- The binary search: the first row of `lo..hi` whose key is not below `key`. -/
def lowerBound (t : Tables) (table : TableId) (column key : Nat) :
    Nat → Nat → Nat → Checked Nat
  | 0, _, _ => throw .rounds
  | rounds + 1, lo, hi =>
      if lo < hi then do
        let gap ← u32Sub hi lo
        let mid ← u32Add lo (gap / 2)
        let value ← Checked.ofResult (t.rawColumn table mid column)
        if value < key then do
          let lo ← u32Add mid 1
          t.lowerBound table column key rounds lo hi
        else t.lowerBound table column key rounds lo mid
      else return lo

/-- The run of rows from `rid` on whose key is `key`. -/
def keyRun (t : Tables) (table : TableId) (column key : Nat) :
    Nat → Nat → List Nat → Checked (List Nat)
  | 0, _, _ => throw .rounds
  | rounds + 1, rid, out =>
      if rid ≤ t.rowCount table then do
        let value ← Checked.ofResult (t.rawColumn table rid column)
        if value = key then do
          let next ← u32Add rid 1
          t.keyRun table column key rounds next (out ++ [rid])
        else return out
      else return out

/-- The linear scan of `rids`. -/
def keyScan (t : Tables) (table : TableId) (column key : Nat) :
    List Nat → List Nat → Checked (List Nat)
  | [], out => return out
  | rid :: rids, out => do
      let value ← Checked.ofResult (t.rawColumn table rid column)
      t.keyScan table column key rids (if value = key then out ++ [rid] else out)

/-- The RIDs of every row of `table` whose sort key column equals `key`. -/
def rowsWithKey (t : Tables) (table : TableId) (key : Nat) : Checked (List Nat) :=
  match sortKeyColumn table with
  | none => throw (.error (Error.detached .unsupported "sorted lookup"))
  | some column =>
      let count := t.rowCount table
      if count = 0 then return []
      else if t.isSorted table then do
        let hi ← u32Add count 1
        let lo ← t.lowerBound table column key (count + 1) 1 hi
        t.keyRun table column key (count + 1) lo []
      else t.keyScan table column key (List.range' 1 count) []

/-- The first row of a table whose sort key equals `key`. -/
def firstRowWithKey (t : Tables) (table : TableId) (key : Nat) : Checked (Option Nat) := do
  let rids ← t.rowsWithKey table key
  return rids.head?

/-- The type that lexically encloses a nested type. -/
def enclosingType (t : Tables) (typeDef : Nat) : Checked (Option Nat) := do
  match ← t.firstRowWithKey .nestedClass typeDef with
  | some rid => do
      let outer ← Checked.ofResult (t.rawColumn .nestedClass rid 1)
      return some outer
  | none => return none

/-- The linear scan of `rids` for the types nested in `typeDef`. -/
def nestedScan (t : Tables) (typeDef : Nat) : List Nat → List Nat → Result (List Nat)
  | [], out => return out
  | rid :: rids, out => do
      let outer ← t.rawColumn .nestedClass rid 1
      if outer = typeDef then do
        let inner ← t.rawColumn .nestedClass rid 0
        t.nestedScan typeDef rids (out ++ [inner])
      else t.nestedScan typeDef rids out

/-- The types nested directly inside a type. `NestedClass` is sorted by the nested type, so
this is a linear scan. -/
def nestedTypes (t : Tables) (typeDef : Nat) : Result (List Nat) :=
  t.nestedScan typeDef (List.range' 1 (t.rowCount .nestedClass)) []

/-- The rows of a table whose raw column holds `key`, in row order. -/
def rowsHolding (t : Tables) (table : TableId) (column key : Nat) : List Nat :=
  (List.range' 1 (t.rowCount table)).filter fun rid =>
    (t.rawColumn table rid column).toOption = some key

/-! ## Each loop against the key function -/

namespace LaidOut

variable {t : Tables} {h : StreamHeader} {start : Nat} {table : TableId} {column : Nat}

/-- A table of a stream shorter than `2 ^ 32` has fewer than `2 ^ 31` rows. -/
theorem rowCount_lt (hl : t.LaidOut h start) (hlen : t.data.length < 2 ^ 32)
    (table : TableId) : t.rowCount table < 2 ^ 31 := by
  have hseg := offsetOf_add_size_le (fun u => (t.layout u).byteSize) (TableId.mem_all table)
  have hends := hl.ends
  have hsize : (t.layout table).byteSize = t.rowCount table * rowSizeOf h table := by
    rw [← hl.rowSize_eq]
    rfl
  have hge := Nat.mul_le_mul_left (t.rowCount table) (rowSizeOf_ge h table)
  omega

theorem rowsHolding_eq (hl : t.LaidOut h start) (hcol : column < (columnsOf table).length)
    (key : Nat) :
    t.rowsHolding table column key = (List.range' 1 (t.rowCount table)).filter fun rid =>
      t.columnValue table rid column = key := by
  refine List.filter_congr fun rid hrid => ?_
  rw [hl.rawColumn_eq (hasRow_of_mem_range' hrid) hcol]
  simp [Except.toOption]

/-- In a sorted table, a row below the key has only rows below it before. -/
theorem below_of_le (hsorted : (t.keys table column).Pairwise (· ≤ ·)) (key i j : Nat)
    (hi : 1 ≤ i) (hij : i ≤ j) (hj : j < 1 + t.rowCount table)
    (hbelow : t.columnValue table j column < key) : t.columnValue table i column < key := by
  rcases Nat.lt_or_eq_of_le hij with hlt | rfl
  · have hpair := List.pairwise_iff_getElem.mp hsorted (i - 1) (j - 1)
      (by simp [keys]; omega) (by simp [keys]; omega) (by omega)
    simp only [keys, List.getElem_map, List.getElem_range', Nat.one_mul] at hpair
    rw [show 1 + (i - 1) = i by omega, show 1 + (j - 1) = j by omega] at hpair
    omega
  · exact hbelow

/-- The binary search keeps the bracket and closes it within its rounds. -/
theorem lowerBound_spec (hl : t.LaidOut h start) (hcount : t.rowCount table + 1 < 2 ^ 32)
    (hcol : column < (columnsOf table).length)
    (hsorted : (t.keys table column).Pairwise (· ≤ ·)) (key : Nat) :
    ∀ rounds lo hi, Bracket (fun j => t.columnValue table j column < key) 1
        (1 + t.rowCount table) lo hi → hi - lo < rounds →
      ∃ p, t.lowerBound table column key rounds lo hi = .ok p ∧
        Bracket (fun j => t.columnValue table j column < key) 1 (1 + t.rowCount table) p p
  | 0, _, _, _, hrounds => absurd hrounds (Nat.not_lt_zero _)
  | rounds + 1, lo, hi, hb, hrounds => by
      have hfirst := hb.first_le
      have hlast := hb.hi_le
      have hdown := below_of_le hsorted key
      by_cases hlt : lo < hi
      · have hmidlo : lo ≤ lo + (hi - lo) / 2 := Nat.le_add_right _ _
        have hmidhi : lo + (hi - lo) / 2 < hi := by omega
        have hrow : t.HasRow table (lo + (hi - lo) / 2) := ⟨by omega, by omega⟩
        have hvalue := hl.rawColumn_eq hrow hcol
        have hgap := u32Sub_ok (Nat.le_of_lt hlt)
        have hmid : u32Add lo ((hi - lo) / 2) = .ok (lo + (hi - lo) / 2) :=
          u32Add_ok (by omega)
        simp only [lowerBound, if_pos hlt, hgap, hmid, hvalue, Checked.ofResult, bind, Except.bind]
        -- the values are sorted, so one comparison moves an end of the bracket
        by_cases hbelow : t.columnValue table (lo + (hi - lo) / 2) column < key
        · have hnext : u32Add (lo + (hi - lo) / 2) 1 = .ok (lo + (hi - lo) / 2 + 1) :=
            u32Add_ok (by omega)
          simp only [if_pos hbelow, hnext]
          exact lowerBound_spec hl hcount hcol hsorted key rounds _ hi
            (hb.raise hdown hmidlo hmidhi hbelow) (by omega)
        · simp only [if_neg hbelow]
          exact lowerBound_spec hl hcount hcol hsorted key rounds lo _
            (hb.lower hdown hmidlo hmidhi hbelow) (by omega)
      · have heq : hi = lo := Nat.le_antisymm (Nat.not_lt.mp hlt) hb.lo_le
        subst heq
        simp only [lowerBound, if_neg hlt]
        exact ⟨hi, rfl, hb⟩

/-- The run from `rid` on is the longest prefix of the rows that holds the key. -/
theorem keyRun_eq (hl : t.LaidOut h start) (hcount : t.rowCount table + 1 < 2 ^ 32)
    (hcol : column < (columnsOf table).length) (key : Nat) :
    ∀ rounds rid out, 1 ≤ rid → 1 + t.rowCount table - rid < rounds →
      t.keyRun table column key rounds rid out =
        .ok (out ++ (List.range' rid (1 + t.rowCount table - rid)).takeWhile fun j =>
          t.columnValue table j column = key)
  | 0, _, _, _, hrounds => absurd hrounds (Nat.not_lt_zero _)
  | rounds + 1, rid, out, hrid, hrounds => by
      by_cases hle : rid ≤ t.rowCount table
      · have hrow : t.HasRow table rid := ⟨hrid, hle⟩
        have hvalue := hl.rawColumn_eq hrow hcol
        obtain ⟨n, hn⟩ : ∃ n, 1 + t.rowCount table - rid = n + 1 :=
          ⟨t.rowCount table - rid, by omega⟩
        simp only [keyRun, if_pos hle, hvalue, Checked.ofResult, bind, Except.bind, hn,
          List.range'_succ, List.takeWhile_cons]
        by_cases hkey : t.columnValue table rid column = key
        · have hnext : u32Add rid 1 = .ok (rid + 1) := u32Add_ok (by omega)
          have htail := keyRun_eq hl hcount hcol key rounds (rid + 1) (out ++ [rid]) (by omega)
            (by omega)
          rw [show 1 + t.rowCount table - (rid + 1) = n by omega] at htail
          simp only [if_pos hkey, hnext, htail, decide_eq_true hkey, if_true,
            List.append_assoc, List.singleton_append]
        · simp [hkey, pure, Except.pure]
      · have hzero : 1 + t.rowCount table - rid = 0 := by omega
        simp [keyRun, if_neg hle, hzero, pure, Except.pure]

/-- The scan filters the rows by the key. -/
theorem keyScan_eq (hl : t.LaidOut h start) (hcol : column < (columnsOf table).length)
    (key : Nat) {rids : List Nat} (hrids : ∀ rid ∈ rids, t.HasRow table rid)
    (out : List Nat) :
    t.keyScan table column key rids out =
      .ok (out ++ rids.filter fun rid => t.columnValue table rid column = key) := by
  induction rids generalizing out with
  | nil => simp [keyScan, pure, Except.pure]
  | cons rid rids ih =>
      have hvalue := hl.rawColumn_eq (hrids rid List.mem_cons_self) hcol
      have htail := ih fun x hx => hrids x (List.mem_cons_of_mem _ hx)
      simp only [keyScan, hvalue, Checked.ofResult, bind, Except.bind, htail]
      by_cases hkey : t.columnValue table rid column = key
      · simp [hkey]
      · simp [hkey]

end LaidOut

/-! ## The whole lookup -/

/-- A lookup returns the rows that hold the key, unless the search has to form an end
that leaves `u32`. -/
theorem LaidOut.rowsWithKey_spec {t : Tables} {h : StreamHeader} {start : Nat}
    (hl : t.LaidOut h start) (hverified : ∀ table, t.isSorted table ↔ t.KeysSorted table)
    {table : TableId} {column : Nat} (hkey : sortKeyColumn table = some column)
    (hcount : t.isSorted table → t.rowCount table + 1 < 2 ^ 32) (key : Nat) :
    t.rowsWithKey table key = .ok (t.rowsHolding table column key) := by
  have hcol := sortKeyColumn_lt hkey
  rw [hl.rowsHolding_eq hcol]
  simp only [rowsWithKey, hkey]
  by_cases hzero : t.rowCount table = 0
  · simp [hzero, pure, Except.pure]
  · rw [if_neg hzero]
    -- a sorted table is searched, any other is scanned
    by_cases hbit : t.isSorted table
    · obtain ⟨column', hcolumn', hsorted⟩ := (hverified table).mp hbit
      rw [hkey] at hcolumn'
      cases hcolumn'
      have hend := hcount hbit
      have hhi : u32Add (t.rowCount table) 1 = .ok (1 + t.rowCount table) := by
        rw [Nat.add_comm 1]
        exact u32Add_ok hend
      obtain ⟨p, hp, hb⟩ := hl.lowerBound_spec hend hcol hsorted key (t.rowCount table + 1) 1
        (1 + t.rowCount table) (Bracket.init (by omega)) (by omega)
      have hfirst := hb.first_le
      have hruns := hl.keyRun_eq hend hcol key (t.rowCount table + 1) p [] hfirst (by omega)
      simp only [if_pos hbit, hhi, hp, hruns, bind, Except.bind, List.nil_append]
      rw [filter_range'_eq_takeWhile hsorted hb]
    · have hscan := hl.keyScan_eq hcol key (fun _ hrid => hasRow_of_mem_range' hrid) []
      simpa only [if_neg hbit, List.nil_append] using hscan

/-- A sorted table whose end is past `u32::MAX` cannot be searched. -/
theorem rowsWithKey_overflow {t : Tables} {table : TableId} {column : Nat}
    (hkey : sortKeyColumn table = some column) (hsorted : t.isSorted table)
    (hcount : 2 ^ 32 ≤ t.rowCount table + 1) (key : Nat) :
    t.rowsWithKey table key = .error .overflow := by
  have hzero : t.rowCount table ≠ 0 := by omega
  have hhi : u32Add (t.rowCount table) 1 = .error .overflow :=
    if_neg (Nat.not_lt.mpr hcount)
  simp only [rowsWithKey, hkey, if_neg hzero, if_pos hsorted, hhi, bind, Except.bind]

/-- A lookup returns every row that holds the key, in ascending order, whether it
searches or scans; no `u32` operation of it overflows. -/
theorem rowsWithKey_eq {data : List UInt8} {base : Nat} {uncompressed : Bool} {s : Strictness}
    {ds ds' : List Diagnostic} {t : Tables} (hlen : data.length < 2 ^ 32)
    (hrun : parse data base uncompressed s ds = .ok (t, ds')) {table : TableId} {column : Nat}
    (hkey : sortKeyColumn table = some column) (key : Nat) :
    t.rowsWithKey table key = .ok (t.rowsHolding table column key) := by
  obtain ⟨⟨rfl, _, hl⟩, hverified⟩ := parse_spec hrun
  have hcount := hl.rowCount_lt hlen table
  exact hl.rowsWithKey_spec hverified hkey (fun _ => by omega) key

/-- Three nested classes with the keys 1, 2 and 2. -/
def nestedClassStream : List UInt8 :=
  [0, 0, 0, 0, 2, 0, 0, 1, 0, 0, 0, 0, 0, 0x02, 0, 0, 0, 0, 0, 0, 0, 0, 0, 0,
    3, 0, 0, 0, 1, 0, 9, 0, 2, 0, 9, 0, 2, 0, 9, 0]

theorem nestedClassStream_rowsWithKey : ∃ t ds',
    parse nestedClassStream 0 false .strict [] = .ok (t, ds') ∧
    t.rowsWithKey .nestedClass 2 = .ok (t.rowsHolding .nestedClass 0 2) := by
  have hok : (parse nestedClassStream 0 false .strict []).isOk := by decide +kernel
  obtain ⟨⟨t, ds'⟩, hrun⟩ := exists_ok_of_isOk hok
  exact ⟨t, ds', hrun, rowsWithKey_eq (by decide) hrun rfl 2⟩

end Tables

end Cildec
