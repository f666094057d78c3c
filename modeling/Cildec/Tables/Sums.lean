import Cildec.Lib.Trace
import Cildec.Tables.Safety

/-!
# The size arithmetic of the table stream

Each function here follows the one it is named after and collects the `usize` values that
one computes by a plain addition or multiplication, in order. Checked and saturating
operations are not listed: they cannot overflow. Whatever the stream declares, no value is
beyond the end of the stream (`parseSums_le`, `LaidOut.rowBytesSums_le`).
-/

namespace Cildec

open Wire

/-- Every value fits a `usize` of 32 bits. -/
def FitsU32 (sums : List Nat) : Prop := ∀ n ∈ sums, n ≤ u32Max

theorem fitsU32_nil : FitsU32 [] := by
  intro n hn
  cases hn

theorem fitsU32_append {xs ys : List Nat} :
    FitsU32 (xs ++ ys) ↔ FitsU32 xs ∧ FitsU32 ys := List.forall_mem_append

theorem fitsU32_after {x : Except ε α} {sums : α → List Nat} :
    FitsU32 (after x sums) ↔ ∀ a, x = .ok a → FitsU32 (sums a) := by
  constructor
  · intro h a ha n hn
    exact h n (mem_after.mpr ⟨a, ha, hn⟩)
  · intro h n hn
    obtain ⟨a, ha, hn⟩ := mem_after.mp hn
    exact h a ha n hn

theorem fitsU32_afterRun {x : EStateM.Result ε σ α} {sums : α → σ → List Nat} :
    FitsU32 (afterRun x sums) ↔ ∀ a s, x = .ok a s → FitsU32 (sums a s) := by
  constructor
  · intro h a s ha n hn
    exact h n (mem_afterRun.mpr ⟨a, s, ha, hn⟩)
  · intro h n hn
    obtain ⟨a, s, ha, hn⟩ := mem_afterRun.mp hn
    exact h a s ha n hn

/-- The position after each byte of the header that is read by itself, and the offset of
`HeapSizes` when it is reported. -/
def headerSums (data : List UInt8) (base : Nat) : List Nat :=
  ((List.range' 4 4).filter (· < data.length)).map (· + 1) ++
    if 24 ≤ data.length ∧ streamHeapSizes data &&& ~~~knownHeapBits ≠ 0 then [base + 6] else []

def clampSums (dataLen base rowSize count : Nat) (st : LayoutState) : List Nat :=
  if 0 < count ∧ (st.exhausted ∨ dataLen - st.cursor < count * rowSize) then [base + st.cursor]
  else []

def layoutTableSums (dataLen base : Nat) (strictness : Strictness) (h : StreamHeader)
    (st : LayoutState) (id : TableId) : List Nat :=
  clampSums dataLen base (rowSizeOf h id) (h.rowCounts id) st ++
    after (clampRowCount dataLen base strictness (rowSizeOf h id) (h.rowCounts id) st)
      fun kept => [kept.1 * rowSizeOf h id]

def layoutTablesSums (dataLen base : Nat) (strictness : Strictness) (h : StreamHeader) :
    List TableId → LayoutState → List Nat
  | [], _ => []
  | id :: ids, st =>
      layoutTableSums dataLen base strictness h st id ++
        after (layoutTable dataLen base strictness h st id)
          (layoutTablesSums dataLen base strictness h ids)

namespace Tables

def rowBytesSums (t : Tables) (table : TableId) (rid : Nat) : List Nat :=
  let layout := t.layout table
  if rid = 0 ∨ layout.rowCount < rid then []
  else
    let start := layout.dataOffset + (rid - 1) * layout.rowSize
    [(rid - 1) * layout.rowSize, start, start + layout.rowSize]

def rawColumnSums (t : Tables) (table : TableId) (rid column : Nat) : List Nat :=
  if (t.layout table).columnCount ≤ column then [] else t.rowBytesSums table rid

def sortedFromSums (t : Tables) (table : TableId) (column : Nat) : Nat → List Nat → List Nat
  | _, [] => []
  | previous, rid :: rids =>
      t.rawColumnSums table rid column ++
        after (t.rawColumn table rid column) fun value =>
          if value < previous then [] else t.sortedFromSums table column value rids

def verifyTableSums (t : Tables) (id : TableId) : List Nat :=
  match sortKeyColumn id with
  | none => []
  | some column =>
      let count := t.rowCount id
      if count ≤ 1 then []
      else
        t.rawColumnSums id 1 column ++
          after (t.rawColumn id 1 column) fun previous =>
            t.sortedFromSums id column previous (List.range' 2 (count - 1))

def verifyTablesSums (t : Tables) (strictness : Strictness) :
    List TableId → Nat → List Diagnostic → List Nat
  | [], _, _ => []
  | id :: ids, bits, diagnostics =>
      t.verifyTableSums id ++
        after (t.verifyTable strictness id bits diagnostics) fun verified =>
          t.verifyTablesSums strictness ids verified.1 verified.2

def parseSums (data : List UInt8) (base : Nat) (uncompressed : Bool) (strictness : Strictness)
    (diagnostics : List Diagnostic) : List Nat :=
  headerSums data base ++
    afterRun ((readStreamHeader base strictness diagnostics).run
      (Reader.new data base tableStreamContext)) fun header r =>
        layoutTablesSums data.length base strictness header.1 TableId.all
            { layouts := fun _ => .default, cursor := r.position, exhausted := false
              diagnostics := header.2 } ++
          after (parseLayouts data base uncompressed strictness diagnostics) fun laid =>
            laid.1.verifyTablesSums strictness TableId.all 0 laid.2

end Tables

/-! ## Bounds -/

theorem headerSums_le {data : List UInt8} {base n : Nat} (hn : n ∈ headerSums data base) :
    n ≤ base + data.length := by
  unfold headerSums at hn
  rcases List.mem_append.mp hn with hn | hn
  · obtain ⟨pos, hpos, rfl⟩ := List.mem_map.mp hn
    have hlt := of_decide_eq_true (List.mem_filter.mp hpos).2
    omega
  · by_cases hreported : 24 ≤ data.length ∧ streamHeapSizes data &&& ~~~knownHeapBits ≠ 0
    · rw [if_pos hreported, List.mem_singleton] at hn
      have hlen := hreported.1
      omega
    · rw [if_neg hreported] at hn
      cases hn

theorem clampSums_le {dataLen base rowSize count n : Nat} {st : LayoutState}
    (hcursor : st.cursor ≤ dataLen) (hn : n ∈ clampSums dataLen base rowSize count st) :
    n ≤ base + dataLen := by
  unfold clampSums at hn
  by_cases hcut : 0 < count ∧ (st.exhausted ∨ dataLen - st.cursor < count * rowSize)
  · rw [if_pos hcut, List.mem_singleton] at hn
    omega
  · rw [if_neg hcut] at hn
    cases hn

theorem layoutTableSums_le {dataLen base n : Nat} {strictness : Strictness} {h : StreamHeader}
    {st : LayoutState} {id : TableId} (hcursor : st.cursor ≤ dataLen)
    (hn : n ∈ layoutTableSums dataLen base strictness h st id) : n ≤ base + dataLen := by
  rcases List.mem_append.mp hn with hn | hn
  · exact clampSums_le hcursor hn
  · obtain ⟨kept, hkept, hn⟩ := mem_after.mp hn
    have hfits := clampRowCount_fits hkept
    rw [List.mem_singleton] at hn
    omega

/-- The cursor of the layout loop stays in the stream, so the values it reports do. -/
theorem layoutTablesSums_le {dataLen base n : Nat} {strictness : Strictness} {h : StreamHeader}
    (ids : List TableId) : ∀ {st : LayoutState}, st.cursor ≤ dataLen →
      n ∈ layoutTablesSums dataLen base strictness h ids st → n ≤ base + dataLen := by
  induction ids with
  | nil =>
      intro st _ hn
      cases hn
  | cons id ids ih =>
      intro st hcursor hn
      rcases List.mem_append.mp hn with hn | hn
      · exact layoutTableSums_le hcursor hn
      · obtain ⟨st', hstep, hn⟩ := mem_after.mp hn
        obtain ⟨kept, exhausted, ds, hclamp, rfl⟩ := layoutTable_ok_iff.mp hstep
        have hfits := clampRowCount_fits hclamp
        refine ih ?_ hn
        simp only
        omega

namespace Tables

variable {t : Tables} {h : StreamHeader} {start n : Nat}

/-- A row that exists ends inside the stream; of another one nothing is computed. -/
theorem LaidOut.rowBytesSums_le (hl : t.LaidOut h start) {table : TableId} {rid : Nat}
    (hn : n ∈ t.rowBytesSums table rid) : n ≤ t.data.length := by
  unfold rowBytesSums at hn
  by_cases hrid : rid = 0 ∨ (t.layout table).rowCount < rid
  · rw [if_pos hrid] at hn
    cases hn
  · have hrow : t.HasRow table rid := by
      have hcount : t.rowCount table = (t.layout table).rowCount := rfl
      rw [HasRow, hcount]
      omega
    have hend := (hl.row_in_stream hrow).2
    rw [rowEnd, rowStart] at hend
    rw [if_neg hrid] at hn
    simp only [List.mem_cons, List.not_mem_nil, or_false] at hn
    omega

theorem LaidOut.rawColumnSums_le (hl : t.LaidOut h start) {table : TableId} {rid column : Nat}
    (hn : n ∈ t.rawColumnSums table rid column) : n ≤ t.data.length := by
  unfold rawColumnSums at hn
  by_cases hcolumn : (t.layout table).columnCount ≤ column
  · rw [if_pos hcolumn] at hn
    cases hn
  · rw [if_neg hcolumn] at hn
    exact hl.rowBytesSums_le hn

theorem LaidOut.sortedFromSums_le (hl : t.LaidOut h start) {table : TableId} {column : Nat}
    (rids : List Nat) : ∀ {previous : Nat},
      n ∈ t.sortedFromSums table column previous rids → n ≤ t.data.length := by
  induction rids with
  | nil =>
      intro previous hn
      cases hn
  | cons rid rids ih =>
      intro previous hn
      rcases List.mem_append.mp hn with hn | hn
      · exact hl.rawColumnSums_le hn
      · obtain ⟨value, _, hn⟩ := mem_after.mp hn
        by_cases hless : value < previous
        · rw [if_pos hless] at hn
          cases hn
        · rw [if_neg hless] at hn
          exact ih hn

theorem LaidOut.verifyTableSums_le (hl : t.LaidOut h start) {id : TableId}
    (hn : n ∈ t.verifyTableSums id) : n ≤ t.data.length := by
  unfold verifyTableSums at hn
  cases hkey : sortKeyColumn id with
  | none =>
      rw [hkey] at hn
      cases hn
  | some column =>
      simp only [hkey] at hn
      by_cases hcount : t.rowCount id ≤ 1
      · rw [if_pos hcount] at hn
        cases hn
      · rw [if_neg hcount] at hn
        rcases List.mem_append.mp hn with hn | hn
        · exact hl.rawColumnSums_le hn
        · obtain ⟨previous, _, hn⟩ := mem_after.mp hn
          exact hl.sortedFromSums_le _ hn

theorem LaidOut.verifyTablesSums_le (hl : t.LaidOut h start) {strictness : Strictness}
    (ids : List TableId) : ∀ {bits : Nat} {ds : List Diagnostic},
      n ∈ t.verifyTablesSums strictness ids bits ds → n ≤ t.data.length := by
  induction ids with
  | nil =>
      intro bits ds hn
      cases hn
  | cons id ids ih =>
      intro bits ds hn
      rcases List.mem_append.mp hn with hn | hn
      · exact hl.verifyTableSums_le hn
      · obtain ⟨verified, _, hn⟩ := mem_after.mp hn
        exact ih hn

/-- No value computed while a table stream is parsed is beyond the end of the stream. -/
theorem parseSums_le {data : List UInt8} {base : Nat} {uncompressed : Bool}
    {strictness : Strictness} {ds : List Diagnostic}
    (hn : n ∈ parseSums data base uncompressed strictness ds) : n ≤ base + data.length := by
  rcases List.mem_append.mp hn with hn | hn
  · exact headerSums_le hn
  · obtain ⟨header, r, hheader, hn⟩ := mem_afterRun.mp hn
    rcases List.mem_append.mp hn with hn | hn
    · obtain ⟨_, hend, hle⟩ := readStreamHeader_spec hheader
      refine layoutTablesSums_le _ ?_ hn
      rw [hend]
      exact hle
    · obtain ⟨laid, hlaid, hn⟩ := mem_after.mp hn
      have hparsed := parseLayouts_spec hlaid
      have hle := hparsed.laidOut.verifyTablesSums_le _ hn
      rw [hparsed.data_eq] at hle
      omega

end Tables

end Cildec
