import Cildec.Tables.Sorted

/-!
# What an accepted table stream guarantees

`parse` establishes the layout invariant (`parse_spec`), for every stream, base and
strictness. `parse_row_access` is the safety statement for its callers: a row that
`row_count` promises can be read, rows do not overlap, and nothing outside the rows is
ever read as one.
-/

namespace Cildec

open Wire

namespace Tables

variable {data : List UInt8} {base : Nat} {uncompressed : Bool} {s : Strictness}
  {ds ds' : List Diagnostic} {t : Tables}

/-! ## Inversion of `parse` -/

/-- What `parse` did before the sortedness check. -/
theorem parseLayouts_ok
    (hrun : parseLayouts data base uncompressed s ds = .ok (t, ds')) :
    ∃ h dsh r st, (readStreamHeader base s ds).run (Reader.new data base tableStreamContext) =
        .ok (h, dsh) r ∧
      layoutTables data.length base s h TableId.all
        { layouts := fun _ => .default, cursor := r.position, exhausted := false
          diagnostics := dsh } = .ok st ∧
      t = { data, base, majorVersion := h.majorVersion, minorVersion := h.minorVersion
            heapSizes := h.heapSizes, valid := h.valid, declaredSorted := h.declaredSorted
            verifiedSorted := 0, uncompressed, extraData := h.extraData
            layouts := st.layouts } := by
  unfold parseLayouts at hrun
  cases hheader : (readStreamHeader base s ds).run
      (Reader.new data base tableStreamContext) with
  | error e r =>
      rw [hheader] at hrun
      cases hrun
  | ok result r =>
      obtain ⟨h, dsh⟩ := result
      simp only [hheader, bind, Except.bind] at hrun
      cases hlayouts : layoutTables data.length base s h TableId.all
          { layouts := fun _ => .default, cursor := r.position, exhausted := false
            diagnostics := dsh } with
      | error e =>
          rw [hlayouts] at hrun
          cases hrun
      | ok st =>
          rw [hlayouts] at hrun
          cases hrun
          exact ⟨h, dsh, r, st, rfl, hlayouts, rfl⟩

/-- `parse` adds the verified bits to what the layout loop built. -/
theorem parse_ok (hrun : parse data base uncompressed s ds = .ok (t, ds')) :
    ∃ t₀ ds₀ bits, parseLayouts data base uncompressed s ds = .ok (t₀, ds₀) ∧
      t₀.verifySortedness s ds₀ = .ok (bits, ds') ∧
      t = { t₀ with verifiedSorted := bits } := by
  unfold parse at hrun
  cases hlayouts : parseLayouts data base uncompressed s ds with
  | error e =>
      rw [hlayouts] at hrun
      cases hrun
  | ok result =>
      obtain ⟨t₀, ds₀⟩ := result
      simp only [hlayouts, bind, Except.bind] at hrun
      cases hverify : t₀.verifySortedness s ds₀ with
      | error e =>
          rw [hverify] at hrun
          cases hrun
      | ok result =>
          obtain ⟨bits, ds₁⟩ := result
          rw [hverify] at hrun
          cases hrun
          exact ⟨t₀, ds₀, bits, rfl, hverify, rfl⟩

/-! ## The invariant -/

/-- What holds of the tables `parse` returns for `data`. -/
structure ParsedFrom (t : Tables) (data : List UInt8) (base : Nat) : Prop where
  data_eq : t.data = data
  base_eq : t.base = base
  laidOut : t.LaidOut (declaredHeader data) (headerEnd data)

theorem parseLayouts_spec
    (hrun : parseLayouts data base uncompressed s ds = .ok (t, ds')) :
    t.ParsedFrom data base := by
  obtain ⟨h, dsh, r, st, hheader, hlayouts, rfl⟩ := parseLayouts_ok hrun
  obtain ⟨rfl, hend, hle⟩ := readStreamHeader_spec hheader
  obtain ⟨hlaid, _, hcursor, hinside⟩ :=
    layoutTables_spec TableId.all_nodup (by rw [hend]; exact hle) hlayouts
  rw [hend] at hlaid hcursor
  exact ⟨rfl, rfl, hlaid, hcursor ▸ hinside⟩

/-- An accepted stream is laid out, and its verified bits are the sorted tables. -/
theorem parse_spec (hrun : parse data base uncompressed s ds = .ok (t, ds')) :
    t.ParsedFrom data base ∧ ∀ table, t.isSorted table ↔ t.KeysSorted table := by
  obtain ⟨t₀, ds₀, bits, hlayouts, hverify, rfl⟩ := parse_ok hrun
  have hparsed := parseLayouts_spec hlayouts
  exact ⟨⟨hparsed.data_eq, hparsed.base_eq, hparsed.laidOut.laid, hparsed.laidOut.ends⟩,
    hparsed.laidOut.verifySortedness_spec hverify⟩

/-- The sortedness check of `parse` itself never runs into a missing row. -/
theorem parseLayouts_verify_error {e : Error}
    (hrun : parseLayouts data base uncompressed s ds = .ok (t, ds'))
    (hverify : t.verifySortedness s ds' = .error e) : e.kind = .malformed :=
  ((parseLayouts_spec hrun).laidOut.verifySortedness_error hverify).1

/-! ## Row access -/

namespace LaidOut

variable {h : StreamHeader} {start : Nat}

theorem hasRow_of_rowBytes {table : TableId} {rid : Nat} {bytes : List UInt8}
    (hok : t.rowBytes table rid = .ok bytes) : t.HasRow table rid := by
  by_contra hrow
  rw [rowBytes_out_of_range hrow] at hok
  cases hok

/-- A row can be read exactly when `row_count` promises it. -/
theorem rowBytes_ok_iff (hl : t.LaidOut h start) (table : TableId) (rid : Nat) :
    (∃ bytes, t.rowBytes table rid = .ok bytes) ↔ t.HasRow table rid := by
  constructor
  · rintro ⟨bytes, hok⟩
    exact hasRow_of_rowBytes hok
  · intro hrow
    exact ⟨_, hl.rowBytes_eq hrow⟩

theorem rawColumn_ok_iff (hl : t.LaidOut h start) (table : TableId) (rid column : Nat) :
    (∃ value, t.rawColumn table rid column = .ok value) ↔
      t.HasRow table rid ∧ column < (t.layout table).columnCount := by
  rw [hl.columnCount_eq]
  constructor
  · rintro ⟨value, hok⟩
    by_contra hno
    rw [hl.rawColumn_error hno] at hok
    cases hok
  · rintro ⟨hrow, hcol⟩
    obtain ⟨value, hvalue, _⟩ := hl.rawColumn_ok hrow hcol
    exact ⟨value, hvalue⟩

/-- The bytes of a row are its part of the stream behind the header. -/
theorem rowBytes_part (hl : t.LaidOut h start) {table : TableId} {rid : Nat}
    {bytes : List UInt8} (hok : t.rowBytes table rid = .ok bytes) :
    bytes = (t.data.drop (t.rowStart table rid)).take
        (t.rowEnd table rid - t.rowStart table rid) ∧
      start ≤ t.rowStart table rid ∧ t.rowStart table rid < t.rowEnd table rid ∧
      t.rowEnd table rid ≤ t.data.length := by
  have hrow := hasRow_of_rowBytes hok
  have hpos := hl.rowSize_pos table
  obtain ⟨hstart, hend⟩ := hl.row_in_stream hrow
  rw [hl.rowBytes_eq hrow] at hok
  cases hok
  refine ⟨?_, hstart, ?_, hend⟩
  · rw [rowEnd, Nat.add_sub_cancel_left, hl.rowSize_eq]
  · rw [rowEnd]
    omega

theorem rowBytes_not_truncated (hl : t.LaidOut h start) {table : TableId} {rid : Nat}
    {e : Error} (herror : t.rowBytes table rid = .error e) : e.kind ≠ .truncated := by
  by_cases hrow : t.HasRow table rid
  · rw [hl.rowBytes_eq hrow] at herror
    cases herror
  · rw [rowBytes_out_of_range hrow] at herror
    cases herror
    exact fun hkind => nomatch hkind

theorem rawColumn_not_truncated (hl : t.LaidOut h start) {table : TableId} {rid column : Nat}
    {e : Error} (herror : t.rawColumn table rid column = .error e) : e.kind ≠ .truncated := by
  by_cases hin : t.HasRow table rid ∧ column < (columnsOf table).length
  · rw [hl.rawColumn_eq hin.1 hin.2] at herror
    cases herror
  · rw [hl.rawColumn_error hin] at herror
    cases herror
    exact fun hkind => nomatch hkind

end LaidOut

/-- After `parse`, the rows that exist are exactly those `row_count` promises; they are
disjoint parts of the stream after its header, and no accessor reports truncation. -/
theorem parse_row_access (hrun : parse data base uncompressed s ds = .ok (t, ds')) :
    (∀ table rid, (∃ bytes, t.rowBytes table rid = .ok bytes) ↔
      1 ≤ rid ∧ rid ≤ t.rowCount table) ∧
    (∀ table rid column, (∃ value, t.rawColumn table rid column = .ok value) ↔
      (1 ≤ rid ∧ rid ≤ t.rowCount table) ∧ column < (t.layout table).columnCount) ∧
    (∀ table rid bytes, t.rowBytes table rid = .ok bytes →
      bytes = (data.drop (t.rowStart table rid)).take (t.rowEnd table rid - t.rowStart table rid) ∧
      headerEnd data ≤ t.rowStart table rid ∧ t.rowStart table rid < t.rowEnd table rid ∧
      t.rowEnd table rid ≤ data.length) ∧
    (∀ table rid table' rid', t.HasRow table rid → t.HasRow table' rid' →
      (table, rid) ≠ (table', rid') →
      t.rowEnd table rid ≤ t.rowStart table' rid' ∨
        t.rowEnd table' rid' ≤ t.rowStart table rid) ∧
    (∀ table rid e, t.rowBytes table rid = .error e → e.kind ≠ .truncated) ∧
    (∀ table rid column e, t.rawColumn table rid column = .error e → e.kind ≠ .truncated) ∧
    (∀ s' ds₁ e, t.verifySortedness s' ds₁ = .error e → e.kind ≠ .truncated) := by
  obtain ⟨⟨rfl, _, hl⟩, _⟩ := parse_spec hrun
  refine ⟨hl.rowBytes_ok_iff, hl.rawColumn_ok_iff, ?_, ?_, ?_, ?_, ?_⟩
  · intro table rid bytes hok
    exact hl.rowBytes_part hok
  · intro table rid table' rid' hrow hrow' hne
    exact hl.rows_disjoint hrow hrow' hne
  · intro table rid e herror
    exact hl.rowBytes_not_truncated herror
  · intro table rid column e herror
    exact hl.rawColumn_not_truncated herror
  · intro s' ds₁ e herror
    rw [(hl.verifySortedness_error herror).1]
    decide

/-- A stream that ends in the middle of its `TypeRef` table: two rows of six bytes and one
`TypeSpec` row are declared, ten bytes follow. -/
def cutStream : List UInt8 :=
  [0, 0, 0, 0, 2, 0, 0, 1, 0x02, 0, 0, 0x08, 0, 0, 0, 0, 0, 0, 0, 0, 0, 0, 0, 0,
    2, 0, 0, 0, 1, 0, 0, 0, 1, 2, 3, 4, 5, 6, 7, 8, 9, 10]

theorem cutStream_row_access : ∃ t ds',
    parse cutStream 0 false .permissive [] = .ok (t, ds') ∧
    ∀ table rid, (∃ bytes, t.rowBytes table rid = .ok bytes) ↔
      1 ≤ rid ∧ rid ≤ t.rowCount table := by
  have hok : (parse cutStream 0 false .permissive []).isOk := by decide +kernel
  obtain ⟨⟨t, ds'⟩, hrun⟩ := exists_ok_of_isOk hok
  exact ⟨t, ds', hrun, (parse_row_access hrun).1⟩

end Tables

end Cildec
