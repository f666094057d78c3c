import Cildec.Reader.Located
import Cildec.Tables.Safety

/-!
# The errors of a table stream point into it

A stream over `data` from the absolute offset `base` is refused at an offset of its header, at
the table that does not fit, or at `base` itself for a table that is not sorted
(`Tables.parse_located`).
-/

namespace Cildec

open Wire Reader

variable {data : List UInt8} {base n : Nat} {e : Error}

/-! ## The stream header -/

theorem checkHeapSizes_located {s : Strictness} {heapSizes : UInt8} {ds : List Diagnostic}
    (hlen : 6 ≤ data.length) (h : checkHeapSizes base s heapSizes ds = .error e) :
    e.Located base (base + data.length) := by
  unfold checkHeapSizes at h
  split_ifs at h
  cases h
  exact Error.located_new (Nat.le_add_right _ _) (Nat.add_le_add_left hlen _)

/-- A reserved slot is refused where its count begins. -/
theorem exits_readRowCounts (hmax : base + data.length ≤ usizeMax) (s : Strictness) (valid : Nat)
    (slots : List Nat) : ∀ (counts : TableId → Nat) (ds : List Diagnostic),
      Exits (Past data base n) (Error.Located base (base + data.length))
        (fun _ => Past data base n) (readRowCounts s valid slots counts ds) := by
  induction slots with
  | nil =>
      intro counts ds
      exact Exits.pure fun _ hr => hr
  | cons slot slots ih =>
      intro counts ds
      unfold readRowCounts
      refine Exits.ite (fun _ => ?_) fun _ => ih counts ds
      refine Exits.get_keep fun r hr => ?_
      have hcount : Exits (Past data base n) (Error.Located base (base + data.length))
          (fun _ => Past data base n) u32 :=
        (exits_u32 hmax).mono (fun _ h => h) fun _ _ h => h.mono (Nat.le_add_right n 4)
      refine hcount.bind fun count => ?_
      cases TableId.fromU8 slot with
      | some id => exact ih _ ds
      | none =>
          refine Exits.ite (fun _ => ?_) fun _ => ih counts _
          exact Exits.throw (hr.located hmax _ _)

theorem exits_readExtraData (hmax : base + data.length ≤ usizeMax) (heapSizes : UInt8) :
    Exits (Past data base n) (Error.Located base (base + data.length)) (fun _ _ => True)
      (readExtraData heapSizes) := by
  unfold readExtraData
  refine Exits.ite (fun _ => ?_) fun _ => Exits.pure fun _ _ => trivial
  exact (exits_u32 hmax).bind fun _ => Exits.pure fun _ _ => trivial

theorem exits_readStreamHeader (hmax : base + data.length ≤ usizeMax) (s : Strictness)
    (ds : List Diagnostic) :
    Exits (Past data base 0) (Error.Located base (base + data.length)) (fun _ _ => True)
      (readStreamHeader base s ds) := by
  refine (exits_u32 hmax).bind fun _ => (exits_u8 hmax).bind fun _ => ?_
  refine (exits_u8 hmax).bind fun _ => ?_
  refine (exits_u8 hmax).bind fun heapSizes => (exits_u8 hmax).bind fun _ => ?_
  refine (exits_u64 hmax).bind fun valid => (exits_u64 hmax).bind fun _ => ?_
  -- the heap sizes are checked once the fixed part of the header is read
  have hcheck : Exits (Past data base (0 + 4 + 1 + 1 + 1 + 1 + 8 + 8))
      (Error.Located base (base + data.length)) (fun _ => Past data base 0)
      (Wire.ofExcept (checkHeapSizes base s heapSizes ds)) := by
    refine Exits.of_pre fun r hr => Exits.ofExcept (fun _ _ r' hr' => hr'.mono (Nat.zero_le _)) ?_
    have hlen := hr.le_length
    exact fun e he => checkHeapSizes_located (by omega) he
  refine hcheck.bind fun ds => ?_
  refine (exits_readRowCounts hmax s _ _ _ ds).bind fun counts => ?_
  exact (exits_readExtraData hmax heapSizes).bind fun _ => Exits.pure fun _ _ => trivial

/-! ## The layout loop -/

theorem clampRowCount_located {dataLen rowSize count : Nat} {s : Strictness} {st : LayoutState}
    (hcursor : st.cursor ≤ dataLen)
    (h : clampRowCount dataLen base s rowSize count st = .error e) :
    e.Located base (base + dataLen) := by
  simp only [clampRowCount] at h
  split_ifs at h
  cases h
  exact Error.located_new (Nat.le_add_right _ _) (Nat.add_le_add_left hcursor _)

theorem layoutTable_error {dataLen : Nat} {s : Strictness} {h : StreamHeader} {st : LayoutState}
    {id : TableId} (herror : layoutTable dataLen base s h st id = .error e) :
    clampRowCount dataLen base s (rowSizeOf h id) (h.rowCounts id) st = .error e := by
  simp only [layoutTable] at herror
  cases hclamp : clampRowCount dataLen base s (rowSizeOf h id) (h.rowCounts id) st with
  | error e' =>
      rw [hclamp] at herror
      cases herror
      rfl
  | ok kept =>
      rw [hclamp] at herror
      cases herror

/-- The cursor of the layout loop stays in the stream, and so does the table it refuses. -/
theorem layoutTables_located {dataLen : Nat} {s : Strictness} {h : StreamHeader}
    (ids : List TableId) : ∀ {st : LayoutState}, st.cursor ≤ dataLen →
      layoutTables dataLen base s h ids st = .error e → e.Located base (base + dataLen) := by
  induction ids with
  | nil =>
      intro st _ herror
      cases herror
  | cons id ids ih =>
      intro st hcursor herror
      unfold layoutTables at herror
      cases hstep : layoutTable dataLen base s h st id with
      | error e' =>
          rw [hstep] at herror
          cases herror
          exact clampRowCount_located hcursor (layoutTable_error hstep)
      | ok st' =>
          rw [hstep] at herror
          obtain ⟨kept, exhausted, ds, hclamp, rfl⟩ := layoutTable_ok_iff.mp hstep
          have hfits := clampRowCount_fits hclamp
          refine ih ?_ herror
          simp only
          omega

namespace Tables

variable {t : Tables} {h : StreamHeader} {start : Nat}

/-- A table that is not sorted is refused at the start of the stream. -/
theorem LaidOut.verifyTables_located (hl : t.LaidOut h start) (s : Strictness)
    (ids : List TableId) : ∀ {bits : Nat} {ds : List Diagnostic},
      t.verifyTables s ids bits ds = .error e → e.Located t.base t.base := by
  induction ids with
  | nil =>
      intro bits ds herror
      cases herror
  | cons id ids ih =>
      intro bits ds herror
      unfold verifyTables at herror
      rcases hl.verifyTable_spec s id bits ds with ⟨_, ds', hround⟩ |
        ⟨_, ⟨ds', hround⟩ | ⟨_, hround⟩⟩
      · rw [hround] at herror
        exact ih herror
      · rw [hround] at herror
        exact ih herror
      · rw [hround] at herror
        cases herror
        exact Error.located_new le_rfl le_rfl

variable {uncompressed : Bool} {s : Strictness} {ds : List Diagnostic}

theorem parseLayouts_located (hmax : base + data.length ≤ usizeMax)
    (h : parseLayouts data base uncompressed s ds = .error e) :
    e.Located base (base + data.length) := by
  unfold parseLayouts at h
  cases hheader : (readStreamHeader base s ds).run (Reader.new data base tableStreamContext) with
  | error e' r =>
      rw [hheader] at h
      cases h
      exact (exits_readStreamHeader hmax s ds).error _ _ _ (Past.new _ _ _) hheader
  | ok result r =>
      obtain ⟨header, ds'⟩ := result
      obtain ⟨_, hend, hle⟩ := readStreamHeader_spec hheader
      simp only [hheader, bind, Except.bind] at h
      cases hlayouts : layoutTables data.length base s header TableId.all
          { layouts := fun _ => .default, cursor := r.position, exhausted := false
            diagnostics := ds' } with
      | ok st =>
          rw [hlayouts] at h
          cases h
      | error e' =>
          rw [hlayouts] at h
          cases h
          refine layoutTables_located _ ?_ hlayouts
          rw [hend]
          exact hle

/-- The errors of a table stream name offsets of the stream. -/
theorem parse_located (hmax : base + data.length ≤ usizeMax)
    (h : parse data base uncompressed s ds = .error e) : e.Located base (base + data.length) := by
  unfold parse at h
  cases hlayouts : parseLayouts data base uncompressed s ds with
  | error e' =>
      rw [hlayouts] at h
      cases h
      exact parseLayouts_located hmax hlayouts
  | ok result =>
      obtain ⟨t, ds'⟩ := result
      have hparsed := parseLayouts_spec hlayouts
      simp only [hlayouts, bind, Except.bind] at h
      cases hverify : t.verifySortedness s ds' with
      | ok verified =>
          rw [hverify] at h
          cases h
      | error e' =>
          rw [hverify] at h
          cases h
          have hlocated := hparsed.laidOut.verifyTables_located s _ hverify
          rw [hparsed.base_eq] at hlocated
          exact hlocated.mono le_rfl (Nat.le_add_right _ _)

/-- A stream without a byte is refused where it starts. -/
theorem parse_nil (uncompressed : Bool) (s : Strictness) (ds : List Diagnostic)
    (hmax : base ≤ usizeMax) :
    ∃ e, parse [] base uncompressed s ds = .error e ∧ e.offset = some base := by
  cases hparse : parse [] base uncompressed s ds with
  | ok result =>
      obtain ⟨t, ds'⟩ := result
      obtain ⟨t₀, ds₀, bits, hlayouts, _⟩ := parse_ok hparse
      obtain ⟨header, ds₁, r, st, hheader, _⟩ := parseLayouts_ok hlayouts
      obtain ⟨_, _, hle⟩ := readStreamHeader_spec hheader
      rw [headerEnd, List.length_nil] at hle
      omega
  | error e =>
      have hmax' : base + ([] : List UInt8).length ≤ usizeMax := hmax
      obtain ⟨o, ho, hlo, hhi⟩ := parse_located hmax' hparse
      rw [List.length_nil] at hhi
      have heq : o = base := by omega
      exact ⟨e, rfl, heq ▸ ho⟩

end Tables

end Cildec
