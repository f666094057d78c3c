import Cildec.Tables.Safety

/-!
# Clamped streams

What permissive parsing does with a stream that is too short. Up to the first table
that does not fit, the tables lie where the declared counts put them
(`layoutTables_fitting`). From there on every declared table is given whatever whole rows
the bytes left over can hold, although those bytes belong to the table that was cut:
rows the complete stream does not have. `onlyDropsRows_iff` says exactly when that
happens.
-/

namespace Cildec

open Wire

/-! ## The declared layout -/

/-- The size of a row, by the declared header. -/
def declaredRowSize (data : List UInt8) (table : TableId) : Nat :=
  rowSizeOf (declaredHeader data) table

/-- The size of a table, by the declared header. -/
def declaredSize (data : List UInt8) (table : TableId) : Nat :=
  declaredRows data table * declaredRowSize data table

/-- Where a table starts, by the declared header. -/
def declaredStart (data : List UInt8) (table : TableId) : Nat :=
  headerEnd data + offsetOf (declaredSize data) TableId.all table

/-- The declared bytes of a row, when the stream holds them. -/
def declaredRowBytes (data : List UInt8) (table : TableId) (rid : Nat) : Option (List UInt8) :=
  let start := declaredStart data table + (rid - 1) * declaredRowSize data table
  slice? data start (start + declaredRowSize data table)

/-- Every row that is exposed is a declared row. -/
def Tables.OnlyDropsRows (t : Tables) (data : List UInt8) : Prop :=
  ∀ table, t.rowCount table ≤ declaredRows data table ∧
    ∀ rid, 1 ≤ rid → rid ≤ t.rowCount table →
      (t.rowBytes table rid).toOption = declaredRowBytes data table rid

/-- A table does not fit: it starts inside the stream and ends outside. -/
def IsCut (data : List UInt8) (table : TableId) : Prop :=
  declaredStart data table ≤ data.length ∧
    data.length < declaredStart data table + declaredSize data table

/-- The bytes after the last whole row of a cut table. -/
def leftover (data : List UInt8) (table : TableId) : Nat :=
  (data.length - declaredStart data table) % declaredRowSize data table

/-- When a table is cut, the bytes left over are too few for a row of any declared table
after it. -/
def LeftoverHoldsNoRow (data : List UInt8) : Prop :=
  ∀ cut later, IsCut data cut → cut.toU8 < later.toU8 → 0 < declaredRows data later →
    leftover data cut < declaredRowSize data later

theorem declaredRows_lt (data : List UInt8) (table : TableId) :
    declaredRows data table < 2 ^ 32 := by
  unfold declaredRows
  split
  · have hlt := leNat_lt ((data.drop (24 + offsetOf (slotSize (streamValid data))
      (List.range 64) table.toU8)).take 4)
    have hlen : ((data.drop (24 + offsetOf (slotSize (streamValid data))
      (List.range 64) table.toU8)).take 4).length ≤ 4 := List.length_take_le _ _
    have hpow := Nat.pow_le_pow_right (n := 256) (by decide) hlen
    exact lt_of_lt_of_le hlt hpow
  · decide

/-! ## The table order -/

theorem all_pairwise_lt : TableId.all.Pairwise fun a b => a.toU8 < b.toU8 := by decide

/-- The tables after `id` in a split of the table order are those of larger id. -/
theorem mem_after_iff {before after : List TableId} {id u : TableId}
    (hall : TableId.all = before ++ id :: after) : u ∈ after ↔ id.toU8 < u.toU8 := by
  have hpair := all_pairwise_lt
  rw [hall, List.pairwise_append, List.pairwise_cons] at hpair
  obtain ⟨_, ⟨hafter, _⟩, hbefore⟩ := hpair
  constructor
  · exact hafter u
  · intro hlt
    have hmem := TableId.mem_all u
    rw [hall, List.mem_append, List.mem_cons] at hmem
    rcases hmem with hu | rfl | hu
    · have := hbefore u hu id List.mem_cons_self
      omega
    · omega
    · exact hu

/-! ## One permissive round -/

section Round

/-- The state after a round that keeps `count` rows. -/
def LayoutState.next (st : LayoutState) (h : StreamHeader) (id : TableId) (count : Nat)
    (exhausted : Bool) (diagnostics : List Diagnostic) : LayoutState where
  layouts := Function.update st.layouts id (layoutAt h id count st.cursor)
  cursor := st.cursor + count * rowSizeOf h id
  exhausted := exhausted
  diagnostics := diagnostics

@[simp] theorem LayoutState.next_zero_cursor (st : LayoutState) (h : StreamHeader)
    (id : TableId) (exhausted : Bool) (ds : List Diagnostic) :
    (st.next h id 0 exhausted ds).cursor = st.cursor := by simp [LayoutState.next]

@[simp] theorem LayoutState.next_exhausted (st : LayoutState) (h : StreamHeader)
    (id : TableId) (count : Nat) (exhausted : Bool) (ds : List Diagnostic) :
    (st.next h id count exhausted ds).exhausted = exhausted := rfl

theorem LayoutState.next_layouts_self (st : LayoutState) (h : StreamHeader) (id : TableId)
    (count : Nat) (exhausted : Bool) (ds : List Diagnostic) :
    (st.next h id count exhausted ds).layouts id = layoutAt h id count st.cursor :=
  Function.update_self ..

/-- The rows a permissive round keeps. -/
def keptRows (dataLen : Nat) (h : StreamHeader) (st : LayoutState) (id : TableId) : Nat :=
  if st.exhausted ∨ dataLen - st.cursor < h.rowCounts id * rowSizeOf h id then
    if h.rowCounts id = 0 then 0 else (dataLen - st.cursor) / rowSizeOf h id % 2 ^ 32
  else h.rowCounts id

/-- A permissive round always succeeds. -/
theorem layoutTable_permissive (dataLen base : Nat) (h : StreamHeader) (st : LayoutState)
    (id : TableId) :
    ∃ ds, layoutTable dataLen base .permissive h st id = .ok (st.next h id
      (keptRows dataLen h st id)
      (st.exhausted || decide (dataLen - st.cursor < h.rowCounts id * rowSizeOf h id)) ds) := by
  have hsize := rowSizeOf_ge h id
  have hne : rowSizeOf h id ≠ 0 := by omega
  simp only [layoutTable_ok_iff, LayoutState.next, clampRowCount, keptRows, if_neg hne]
  rcases Nat.eq_zero_or_pos (h.rowCounts id) with hzero | hpos
  · cases hex : st.exhausted <;> simp [hzero]
  · have hnz : h.rowCounts id ≠ 0 := by omega
    cases hex : st.exhausted
    · by_cases hcut : dataLen - st.cursor < h.rowCounts id * rowSizeOf h id
      · simp [hpos, hcut, hnz, Strictness.isStrict]
      · simp [hcut]
    · simp [hpos, hnz, Strictness.isStrict]

/-- A permissive layout loop always succeeds. -/
theorem layoutTables_permissive (dataLen base : Nat) (h : StreamHeader) :
    ∀ (ids : List TableId) (st : LayoutState),
      ∃ st', layoutTables dataLen base .permissive h ids st = .ok st'
  | [], st => ⟨st, rfl⟩
  | id :: ids, st => by
      obtain ⟨ds, hstep⟩ := layoutTable_permissive dataLen base h st id
      obtain ⟨st', hrest⟩ := layoutTables_permissive dataLen base h ids (st.next h id
        (keptRows dataLen h st id)
        (st.exhausted || decide (dataLen - st.cursor < h.rowCounts id * rowSizeOf h id)) ds)
      exact ⟨st', by simp only [layoutTables, hstep, bind, Except.bind, hrest]⟩

end Round

/-! ## The loop up to the first cut -/

section Loop

variable {dataLen base : Nat} {h : StreamHeader}

/-- The size a header declares for a table. -/
def headerSize (h : StreamHeader) (id : TableId) : Nat := h.rowCounts id * rowSizeOf h id

/-- The rows of a table that is reached before any other is cut. -/
def rowsFrom (dataLen : Nat) (h : StreamHeader) (start : Nat) (id : TableId) : Nat :=
  if dataLen < start + headerSize h id then (dataLen - start) / rowSizeOf h id
  else h.rowCounts id

theorem rowsFrom_le (start : Nat) (id : TableId) (hstart : start ≤ dataLen) :
    rowsFrom dataLen h start id ≤ h.rowCounts id := by
  unfold rowsFrom
  split
  · rename_i hcut
    have hpos := rowSizeOf_ge h id
    rw [headerSize] at hcut
    exact Nat.le_of_lt ((Nat.div_lt_iff_lt_mul (by omega)).mpr (by omega))
  · exact Nat.le_refl _

theorem rowsFrom_fits (start : Nat) (id : TableId) (hstart : start ≤ dataLen) :
    start + rowsFrom dataLen h start id * rowSizeOf h id ≤ dataLen := by
  unfold rowsFrom
  split
  · have hdiv := Nat.div_mul_le_self (dataLen - start) (rowSizeOf h id)
    omega
  · rename_i hfits
    rw [headerSize] at hfits
    omega

/-- Before any table is cut, a round keeps the declared rows that fit. -/
theorem keptRows_eq {st : LayoutState} {id : TableId} (hfresh : st.exhausted = false)
    (hle : st.cursor ≤ dataLen) (hcount : h.rowCounts id < 2 ^ 32) :
    keptRows dataLen h st id = rowsFrom dataLen h st.cursor id := by
  have hrows := rowsFrom_le (h := h) st.cursor id hle
  unfold keptRows
  unfold rowsFrom headerSize at *
  have hiff : dataLen - st.cursor < h.rowCounts id * rowSizeOf h id ↔
      dataLen < st.cursor + h.rowCounts id * rowSizeOf h id := by omega
  simp only [hfresh, Bool.false_eq_true, false_or, hiff]
  split
  · rename_i hcut
    rw [if_pos hcut] at hrows
    have hnz : h.rowCounts id ≠ 0 := by
      intro hzero
      rw [hzero] at hcut
      omega
    rw [if_neg hnz, Nat.mod_eq_of_lt (by omega)]
  · rfl

/-- The tables that fit are placed as declared and leave the loop fresh. -/
theorem layoutTables_fitting {after : List TableId} {st' : LayoutState} :
    ∀ (before : List TableId) {st : LayoutState}, st.exhausted = false →
      st.cursor + (before.map (headerSize h)).sum ≤ dataLen →
      layoutTables dataLen base .permissive h (before ++ after) st = .ok st' →
      ∃ mid, layoutTables dataLen base .permissive h after mid = .ok st' ∧
        mid.exhausted = false ∧ mid.cursor = st.cursor + (before.map (headerSize h)).sum
  | [], st, hfresh, _, hrun => ⟨st, hrun, hfresh, rfl⟩
  | id :: before, st, hfresh, hfits, hrun => by
      rw [List.map_cons, List.sum_cons] at hfits ⊢
      have hround : ¬ dataLen - st.cursor < h.rowCounts id * rowSizeOf h id := by
        have hsize : headerSize h id = h.rowCounts id * rowSizeOf h id := rfl
        omega
      have hkept : keptRows dataLen h st id = h.rowCounts id := by
        simp [keptRows, hfresh, hround]
      obtain ⟨ds, hstep⟩ := layoutTable_permissive dataLen base h st id
      obtain ⟨mid, hmid, hrest⟩ := layoutTables_cons_ok hrun
      rw [hstep] at hmid
      cases hmid
      have hnext : (st.next h id (keptRows dataLen h st id) (st.exhausted ||
          decide (dataLen - st.cursor < h.rowCounts id * rowSizeOf h id)) ds).cursor =
          st.cursor + headerSize h id := by
        rw [hkept]
        rfl
      obtain ⟨last, hlast, hlfresh, hcursor⟩ := layoutTables_fitting before
        (by simp [hfresh, hround]) (by rw [hnext]; omega) hrest
      exact ⟨last, hlast, hlfresh, by rw [hcursor, hnext]; omega⟩

/-! ## The loop after a cut -/

/-- No row fits in what is left: no table keeps a row. -/
theorem layoutTables_no_leftover {st' : LayoutState} :
    ∀ {ids : List TableId} {st : LayoutState}, ids.Nodup → st.exhausted = true →
      st.cursor ≤ dataLen →
      (∀ u ∈ ids, 0 < h.rowCounts u → dataLen - st.cursor < rowSizeOf h u) →
      layoutTables dataLen base .permissive h ids st = .ok st' →
      ∀ u ∈ ids, (st'.layouts u).rowCount = 0
  | [], _, _, _, _, _, _ => fun u hu => absurd hu List.not_mem_nil
  | id :: ids, st, hnodup, hex, hle, hsmall, hrun => by
      obtain ⟨hnotin, hnodup'⟩ := List.nodup_cons.mp hnodup
      have hkept : keptRows dataLen h st id = 0 := by
        rcases Nat.eq_zero_or_pos (h.rowCounts id) with hzero | hpos
        · simp [keptRows, hzero]
        · have hdiv := Nat.div_eq_of_lt (hsmall id List.mem_cons_self hpos)
          simp [keptRows, hex, hdiv]
      obtain ⟨ds, hstep⟩ := layoutTable_permissive dataLen base h st id
      obtain ⟨mid, hmid, hrest⟩ := layoutTables_cons_ok hrun
      rw [hstep, hkept] at hmid
      cases hmid
      obtain ⟨_, hframe, _⟩ := layoutTables_spec hnodup' (by simpa using hle) hrest
      intro u hu
      rcases List.mem_cons.mp hu with rfl | hu
      · rw [hframe u hnotin, LayoutState.next_layouts_self]
        rfl
      · refine layoutTables_no_leftover hnodup' (by simp [hex]) (by simpa using hle) ?_ hrest u hu
        rw [LayoutState.next_zero_cursor]
        exact fun v hv => hsmall v (List.mem_cons_of_mem _ hv)

/-- A row of a declared table fits in what is left: some table keeps a row. -/
theorem layoutTables_leftover {st' : LayoutState} {u : TableId} (hpos : 0 < h.rowCounts u) :
    ∀ {ids : List TableId} {st : LayoutState}, ids.Nodup → st.exhausted = true →
      st.cursor ≤ dataLen → dataLen - st.cursor < 2 ^ 32 → u ∈ ids →
      rowSizeOf h u ≤ dataLen - st.cursor →
      layoutTables dataLen base .permissive h ids st = .ok st' →
      ∃ v ∈ ids, 0 < (st'.layouts v).rowCount
  | id :: ids, st, hnodup, hex, hle, hlt, hu, hsize, hrun => by
      obtain ⟨hnotin, hnodup'⟩ := List.nodup_cons.mp hnodup
      obtain ⟨ds, hstep⟩ := layoutTable_permissive dataLen base h st id
      obtain ⟨mid, hmid, hrest⟩ := layoutTables_cons_ok hrun
      have hfits : st.cursor + keptRows dataLen h st id * rowSizeOf h id ≤ dataLen := by
        obtain ⟨kept, _, _, hclamp, heq⟩ := layoutTable_ok_iff.mp hstep
        have hkept := clampRowCount_fits hclamp
        have hcursor := congrArg LayoutState.cursor heq
        simp only [LayoutState.next] at hcursor
        omega
      rw [hstep] at hmid
      cases hmid
      -- a table that keeps no row leaves the cursor where it is, with the same room for `u`
      rcases Nat.eq_zero_or_pos (keptRows dataLen h st id) with hzero | hkept
      · have hne : id ≠ u := by
          rintro rfl
          have hnz : h.rowCounts id ≠ 0 := by omega
          have hdiv : 0 < (dataLen - st.cursor) / rowSizeOf h id :=
            Nat.div_pos hsize (by have := rowSizeOf_ge h id; omega)
          have hdivle := Nat.div_le_self (dataLen - st.cursor) (rowSizeOf h id)
          rw [keptRows, if_pos (.inl hex), if_neg hnz, Nat.mod_eq_of_lt (by omega)] at hzero
          omega
        rw [hzero] at hrest
        obtain ⟨v, hv, hrows⟩ := layoutTables_leftover hpos hnodup' (by simp [hex])
          (by simpa using hle) (by simpa using hlt) (List.mem_of_ne_of_mem (Ne.symm hne) hu)
          (by simpa using hsize) hrest
        exact ⟨v, List.mem_cons_of_mem _ hv, hrows⟩
      · obtain ⟨_, hframe, _⟩ := layoutTables_spec hnodup' hfits hrest
        refine ⟨id, List.mem_cons_self, ?_⟩
        rw [hframe id hnotin, LayoutState.next_layouts_self]
        exact hkept

end Loop

namespace Tables

variable {data : List UInt8} {base : Nat} {uncompressed : Bool} {ds ds' : List Diagnostic}
  {t : Tables}

/-! ## The tables of a clamped stream -/

/-- The layout loop of a permissive `parse`, by the declared header. -/
theorem parse_layouts (hrun : parse data base uncompressed .permissive ds = .ok (t, ds')) :
    ∃ dsh st, layoutTables data.length base .permissive (declaredHeader data) TableId.all
        { layouts := fun _ => .default, cursor := headerEnd data, exhausted := false
          diagnostics := dsh } = .ok st ∧
      t.layouts = st.layouts ∧ headerEnd data ≤ data.length := by
  obtain ⟨t₀, ds₀, bits, hlayouts, _, rfl⟩ := parse_ok hrun
  obtain ⟨h, dsh, r, st, hheader, hloop, rfl⟩ := parseLayouts_ok hlayouts
  obtain ⟨rfl, hend, hle⟩ := readStreamHeader_spec hheader
  rw [hend] at hloop
  exact ⟨dsh, st, hloop, rfl, hle⟩

/-- A permissive `parse` succeeds as soon as the header is read. -/
theorem parse_permissive_ok (uncompressed : Bool) {h : StreamHeader} {dsh : List Diagnostic}
    {r : Reader} (hheader : (readStreamHeader base .permissive ds).run
      (Reader.new data base tableStreamContext) = .ok (h, dsh) r) :
    ∃ t ds', parse data base uncompressed .permissive ds = .ok (t, ds') := by
  obtain ⟨st, hloop⟩ := layoutTables_permissive data.length base h TableId.all
    { layouts := fun _ => .default, cursor := r.position, exhausted := false, diagnostics := dsh }
  cases hlayouts : parseLayouts data base uncompressed .permissive ds with
  | error e =>
      simp only [parseLayouts, hheader, hloop, bind, Except.bind] at hlayouts
      cases hlayouts
  | ok result =>
      obtain ⟨t₀, ds₀⟩ := result
      cases hverify : t₀.verifySortedness .permissive ds₀ with
      | error e =>
          have hstrict := ((parseLayouts_spec hlayouts).laidOut.verifySortedness_error hverify).2
          cases hstrict
      | ok result =>
          obtain ⟨bits, ds'⟩ := result
          refine ⟨{ t₀ with verifiedSorted := bits }, ds', ?_⟩
          simp only [parse, hlayouts, hverify, bind, Except.bind]
          rfl

theorem declaredStart_split (data : List UInt8) {before after : List TableId} {id : TableId}
    (hall : TableId.all = before ++ id :: after) :
    declaredStart data id = headerEnd data + (before.map (declaredSize data)).sum := by
  rw [declaredStart, offsetOf_split TableId.all_nodup hall]

/-- A table that starts inside the stream is where the header declares it and keeps the
declared rows that fit; the loop goes on after it. -/
theorem parse_reaches (hrun : parse data base uncompressed .permissive ds = .ok (t, ds'))
    {before after : List TableId} {id : TableId} (hall : TableId.all = before ++ id :: after)
    (hstart : declaredStart data id ≤ data.length) :
    t.layouts id = layoutAt (declaredHeader data) id
        (rowsFrom data.length (declaredHeader data) (declaredStart data id) id)
        (declaredStart data id) ∧
      (IsCut data id → ∃ st st', st.exhausted = true ∧ st.cursor ≤ data.length ∧
        data.length - st.cursor = leftover data id ∧ t.layouts = st'.layouts ∧
        layoutTables data.length base .permissive (declaredHeader data) after st = .ok st') := by
  obtain ⟨dsh, st', hloop, hlayouts, hle⟩ := parse_layouts hrun
  have hnodup := TableId.all_nodup
  have hsum := declaredStart_split data hall
  rw [hall] at hloop hnodup
  obtain ⟨mid, hmid, hfresh, hcursor⟩ := layoutTables_fitting before rfl
    (by simpa only [← hsum] using hsum ▸ hstart) hloop
  have hat : mid.cursor = declaredStart data id := hcursor.trans hsum.symm
  obtain ⟨dsi, hstep⟩ := layoutTable_permissive data.length base (declaredHeader data) mid id
  obtain ⟨next, hnext, hrest⟩ := layoutTables_cons_ok hmid
  rw [hstep] at hnext
  cases hnext
  -- no table before `id` is cut, so only what is left clamps its rows
  have hkept : keptRows data.length (declaredHeader data) mid id =
      rowsFrom data.length (declaredHeader data) (declaredStart data id) id := by
    rw [keptRows_eq hfresh (by omega) (declaredRows_lt data id), hat]
  have hfits : declaredStart data id + rowsFrom data.length (declaredHeader data)
      (declaredStart data id) id * rowSizeOf (declaredHeader data) id ≤ data.length :=
    rowsFrom_fits _ id hstart
  have hnodup' := (List.nodup_append.mp hnodup).2.1
  obtain ⟨hnotin, hafter⟩ := List.nodup_cons.mp hnodup'
  rw [hkept] at hrest
  have hcursor' : (mid.next (declaredHeader data) id (rowsFrom data.length (declaredHeader data)
      (declaredStart data id) id) (mid.exhausted || decide (data.length - mid.cursor <
      (declaredHeader data).rowCounts id * rowSizeOf (declaredHeader data) id)) dsi).cursor =
      declaredStart data id + rowsFrom data.length (declaredHeader data)
        (declaredStart data id) id * rowSizeOf (declaredHeader data) id := by
    rw [← hat]
    rfl
  constructor
  · obtain ⟨_, hframe, _⟩ := layoutTables_spec hafter (by rw [hcursor']; exact hfits) hrest
    rw [hlayouts, hframe id hnotin, LayoutState.next_layouts_self, hat]
  · rintro ⟨_, hcut⟩
    have hrows : rowsFrom data.length (declaredHeader data) (declaredStart data id) id =
        (data.length - declaredStart data id) / rowSizeOf (declaredHeader data) id := if_pos hcut
    have hdiv := Nat.div_add_mod (data.length - declaredStart data id)
      (rowSizeOf (declaredHeader data) id)
    refine ⟨_, st', ?_, ?_, ?_, hlayouts, hrest⟩
    · have hsize : declaredSize data id =
          (declaredHeader data).rowCounts id * rowSizeOf (declaredHeader data) id := rfl
      rw [LayoutState.next_exhausted, Bool.or_eq_true, decide_eq_true_iff]
      exact .inr (by omega)
    · rw [hcursor']
      exact hfits
    · rw [hcursor', hrows, Nat.mul_comm, leftover, declaredRowSize]
      omega

/-- The rows of a table that starts inside the stream are declared rows. -/
theorem rows_declared (hrun : parse data base uncompressed .permissive ds = .ok (t, ds'))
    {table : TableId} (hstart : declaredStart data table ≤ data.length) :
    t.rowCount table ≤ declaredRows data table ∧
      ∀ rid, 1 ≤ rid → rid ≤ t.rowCount table →
        (t.rowBytes table rid).toOption = declaredRowBytes data table rid := by
  obtain ⟨⟨rfl, _, hl⟩, _⟩ := parse_spec hrun
  obtain ⟨before, after, hall⟩ := List.append_of_mem (TableId.mem_all table)
  obtain ⟨hlayout, _⟩ := parse_reaches hrun hall hstart
  have hoffset : (t.layout table).dataOffset = declaredStart t.data table := by
    rw [layout, hlayout]
    rfl
  constructor
  · rw [rowCount, hlayout]
    exact rowsFrom_le _ _ hstart
  · intro rid h1 hle
    have hrow : t.HasRow table rid := ⟨h1, hle⟩
    have hin := (hl.row_in_stream hrow).2
    rw [rowEnd, rowStart, hoffset, hl.rowSize_eq] at hin
    rw [hl.rowBytes_eq hrow, declaredRowBytes, rowStart, hoffset, hl.rowSize_eq]
    exact (slice?_of_le hin).symm

/-! ## Exactly when clamping only drops rows -/

/-- A table that starts outside the stream comes after a cut table. -/
theorem exists_cut (hend : headerEnd data ≤ data.length) {table : TableId}
    (hstart : data.length < declaredStart data table) :
    ∃ cut, IsCut data cut ∧ cut.toU8 < table.toU8 := by
  obtain ⟨before, after, hall⟩ := List.append_of_mem (TableId.mem_all table)
  rw [declaredStart_split data hall] at hstart
  obtain ⟨front, cut, back, rfl, hlo, hhi⟩ := exists_segment hend hstart
  have hall' : TableId.all = front ++ cut :: (back ++ table :: after) := by
    rw [hall, List.append_assoc, List.cons_append]
  refine ⟨cut, ⟨?_, ?_⟩, (mem_after_iff hall').mp (by simp)⟩
  · rw [declaredStart_split data hall']
    exact hlo
  · rw [declaredStart_split data hall']
    exact hhi

/-- A table after a cut one starts outside the stream. -/
theorem start_after_cut {cut later : TableId} (hcut : IsCut data cut)
    (hlater : cut.toU8 < later.toU8) : data.length < declaredStart data later := by
  obtain ⟨before, after, hall⟩ := List.append_of_mem (TableId.mem_all cut)
  have hmem := (mem_after_iff hall).mpr hlater
  have hnodup := TableId.all_nodup
  have hsplit := declaredStart_split data hall
  have hafter := offsetOf_after_le (declaredSize data) (hall ▸ hnodup) hmem
  rw [← hall] at hafter
  have hcut' := hcut.2
  rw [hsplit] at hcut'
  rw [declaredStart]
  omega

theorem onlyDropsRows_of_leftover
    (hrun : parse data base uncompressed .permissive ds = .ok (t, ds'))
    (hsmall : LeftoverHoldsNoRow data) : t.OnlyDropsRows data := by
  intro table
  rcases Nat.lt_or_ge data.length (declaredStart data table) with hout | hin
  · obtain ⟨_, _, _, _, hend⟩ := parse_layouts hrun
    obtain ⟨cut, hcut, hbefore⟩ := exists_cut hend hout
    obtain ⟨before, after, hall⟩ := List.append_of_mem (TableId.mem_all cut)
    obtain ⟨st, st', hex, hle, hleft, hlayouts, hloop⟩ := (parse_reaches hrun hall hcut.1).2 hcut
    have hnodup := TableId.all_nodup
    rw [hall] at hnodup
    have hzero := layoutTables_no_leftover
      (List.nodup_cons.mp (List.nodup_append.mp hnodup).2.1).2 hex hle
      (fun u hu hpos => by
        rw [hleft]
        exact hsmall cut u hcut ((mem_after_iff hall).mp hu) hpos) hloop table
      ((mem_after_iff hall).mpr hbefore)
    rw [← hlayouts] at hzero
    have hnone : t.rowCount table = 0 := hzero
    rw [hnone]
    exact ⟨Nat.zero_le _, fun rid h1 hle => by omega⟩
  · exact rows_declared hrun hin

theorem leftover_of_onlyDropsRows
    (hrun : parse data base uncompressed .permissive ds = .ok (t, ds'))
    (hdrops : t.OnlyDropsRows data) : LeftoverHoldsNoRow data := by
  intro cut later hcut hlater hpos
  by_contra hge
  obtain ⟨before, after, hall⟩ := List.append_of_mem (TableId.mem_all cut)
  obtain ⟨st, st', hex, hle, hleft, hlayouts, hloop⟩ := (parse_reaches hrun hall hcut.1).2 hcut
  have hnodup := TableId.all_nodup
  rw [hall] at hnodup
  have hlt : leftover data cut < 2 ^ 32 := by
    have hmod := Nat.mod_lt (data.length - declaredStart data cut)
      (y := declaredRowSize data cut) (by
        have := rowSizeOf_ge (declaredHeader data) cut
        rw [declaredRowSize]
        omega)
    have hsize := rowSizeOf_le (declaredHeader data) cut
    rw [leftover]
    rw [declaredRowSize] at *
    omega
  obtain ⟨v, hv, hrows⟩ := layoutTables_leftover (u := later) hpos
    (List.nodup_cons.mp (List.nodup_append.mp hnodup).2.1).2 hex hle (by rw [hleft]; exact hlt)
    ((mem_after_iff hall).mpr hlater) (by rw [hleft]; exact Nat.not_lt.mp hge) hloop
  rw [← hlayouts] at hrows
  -- the row it keeps cannot be a declared one: its table starts outside the stream
  have hout := start_after_cut hcut ((mem_after_iff hall).mp hv)
  obtain ⟨⟨rfl, _, hl⟩, _⟩ := parse_spec hrun
  have hrow : t.HasRow v 1 := ⟨Nat.le_refl 1, hrows⟩
  have hbytes := (hdrops v).2 1 hrow.1 hrow.2
  rw [hl.rowBytes_eq hrow] at hbytes
  have hslice := (slice?_eq_some_iff.mp hbytes.symm).1
  have hsize := rowSizeOf_ge (declaredHeader t.data) v
  rw [declaredRowSize] at hslice
  omega

/-- Clamping only drops rows exactly when the bytes left over after the cut table hold
no row of a declared table after it. -/
theorem onlyDropsRows_iff (hrun : parse data base uncompressed .permissive ds = .ok (t, ds')) :
    t.OnlyDropsRows data ↔ LeftoverHoldsNoRow data :=
  ⟨leftover_of_onlyDropsRows hrun, onlyDropsRows_of_leftover hrun⟩

theorem cutStream_onlyDropsRows_iff : ∃ t ds',
    parse cutStream 0 false .permissive [] = .ok (t, ds') ∧
    (t.OnlyDropsRows cutStream ↔ LeftoverHoldsNoRow cutStream) := by
  have hok : (parse cutStream 0 false .permissive []).isOk := by decide +kernel
  obtain ⟨⟨t, ds'⟩, hrun⟩ := exists_ok_of_isOk hok
  exact ⟨t, ds', hrun, onlyDropsRows_iff hrun⟩

/-- The cut `TypeRef` table leaves four bytes, and the `TypeSpec` table after it exposes
them as two rows where one is declared. -/
theorem cutStream_adds_rows : ¬ ∀ (data : List UInt8) (base : Nat) (uncompressed : Bool)
    (ds ds' : List Diagnostic) (t : Tables),
    parse data base uncompressed .permissive ds = .ok (t, ds') → t.OnlyDropsRows data := by
  intro hclaim
  have hok : (parse cutStream 0 false .permissive []).isOk := by decide +kernel
  obtain ⟨⟨t, ds'⟩, hrun⟩ := exists_ok_of_isOk hok
  have hcount : ((parse cutStream 0 false .permissive []).toOption.map fun r =>
      r.1.rowCount .typeSpec) = some 2 := by decide +kernel
  have hdeclared : declaredRows cutStream .typeSpec = 1 := by decide +kernel
  rw [hrun] at hcount
  have hrows : t.rowCount .typeSpec = 2 := Option.some.inj hcount
  have hle := (hclaim cutStream 0 false [] ds' t hrun .typeSpec).1
  omega

end Tables

end Cildec
