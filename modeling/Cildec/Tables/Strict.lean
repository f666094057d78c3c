import Cildec.Lib.Commutes
import Cildec.Lib.Narrow
import Cildec.Tables.Stream

/-!
# The table stream in strict mode (`src/tables/mod.rs`)

Diagnostics are only ever added, after those that are there (`Tables.parse_appends`), so a
stream that is read without one has passed every test of strict mode: `Tables.parse_narrows`.
-/

namespace Cildec

open Wire

/-- Diagnostics in front of others. -/
def logged (ds l : List Diagnostic) : List Diagnostic := ds ++ l

/-- Diagnostics in front of those beside a result. -/
def loggedSnd (ds : List Diagnostic) (x : α × List Diagnostic) : α × List Diagnostic :=
  (x.1, ds ++ x.2)

/-- Diagnostics in front of those of the layout loop. -/
def LayoutState.logged (ds : List Diagnostic) (st : LayoutState) : LayoutState :=
  { st with diagnostics := ds ++ st.diagnostics }

theorem logged_nil (ds : List Diagnostic) : logged ds [] = ds := List.append_nil ds

/-- Where a diagnostic is left at the end there was none before. -/
theorem nil_of_appends {f : List Diagnostic → Result (α × List Diagnostic)}
    (hf : Commutes logged loggedSnd f) {ds : List Diagnostic} {x : α × List Diagnostic}
    (hok : f ds = .ok x) (hquiet : x.2 = []) : ds = [] := by
  rw [← logged_nil ds] at hok
  obtain ⟨x', _, rfl⟩ := hf.ok_iff.mp hok
  exact (List.append_eq_nil_iff.mp hquiet).1

theorem nil_of_appendsM {f : List Diagnostic → Read (α × List Diagnostic)}
    (hf : Commutes logged loggedSnd f) {ds : List Diagnostic} {x : α × List Diagnostic}
    {r r' : Reader} (hrun : (f ds).run r = .ok x r') (hquiet : x.2 = []) : ds = [] := by
  rw [← logged_nil ds] at hrun
  obtain ⟨x', _, rfl⟩ := hf.run_ok_iff.mp hrun
  exact (List.append_eq_nil_iff.mp hquiet).1

/-! ## The stream header -/

theorem checkHeapSizes_narrows (base : Nat) (heapSizes : UInt8) (ds : List Diagnostic) :
    Narrows (fun ds' => ds' = []) (checkHeapSizes base .strict heapSizes ds)
      (checkHeapSizes base .permissive heapSizes ds) :=
  Narrows.test (by simp)

theorem checkHeapSizes_appends (base : Nat) (strictness : Strictness) (heapSizes : UInt8) :
    Commutes logged logged (checkHeapSizes base strictness heapSizes) := by
  unfold checkHeapSizes
  refine Commutes.ite (Commutes.ite (Commutes.error _) (Commutes.ok ?_)) (Commutes.ok ?_)
  · intro ds l
    exact List.append_assoc _ _ _
  · intro ds l
    rfl

theorem readRowCounts_appends (strictness : Strictness) (valid : Nat) (slots : List Nat) :
    ∀ counts, Commutes logged loggedSnd (readRowCounts strictness valid slots counts) := by
  induction slots with
  | nil =>
      intro counts
      exact Commutes.pure fun _ _ => rfl
  | cons slot slots ih =>
      intro counts
      show Commutes logged loggedSnd
        (fun l => readRowCounts strictness valid (slot :: slots) counts l)
      simp only [readRowCounts]
      refine Commutes.ite (Commutes.after _ fun r => Commutes.after _ fun count => ?_) (ih _)
      cases TableId.fromU8 slot with
      | some id => exact ih _
      | none =>
          refine Commutes.ite (Commutes.throw _) ?_
          intro ds l
          have htail := ih counts ds (l ++ [Diagnostic.new .reservedTablePresent r.absolute slot])
          rw [logged, ← List.append_assoc] at htail
          exact htail

theorem readRowCounts_narrows (valid : Nat) (slots : List Nat) :
    ∀ (counts : TableId → Nat) (ds : List Diagnostic),
      NarrowsM (fun x => x.2 = []) (readRowCounts .strict valid slots counts ds)
        (readRowCounts .permissive valid slots counts ds) := by
  induction slots with
  | nil =>
      intro counts ds
      exact NarrowsM.refl _ _
  | cons slot slots ih =>
      intro counts ds
      unfold readRowCounts
      split
      · refine NarrowsM.seq get fun r => NarrowsM.seq Reader.u32 fun count => ?_
        -- strict mode refuses an unknown table, permissive mode reports it
        cases TableId.fromU8 slot with
        | some id => exact ih _ _
        | none =>
            refine ⟨?_, ?_⟩
            · intro s a s' hrun
              simp [Strictness.isStrict] at hrun
            · intro s a s' hrun hquiet
              simp only at hrun
              split at hrun
              · cases hrun
              · have hnil := nil_of_appendsM (readRowCounts_appends _ _ _ _) hrun hquiet
                simp at hnil
      · exact ih _ _

theorem readStreamHeader_narrows (base : Nat) (ds : List Diagnostic) :
    NarrowsM (fun x => x.2 = []) (readStreamHeader base .strict ds)
      (readStreamHeader base .permissive ds) := by
  unfold readStreamHeader
  refine NarrowsM.seq _ fun _ => NarrowsM.seq _ fun _ => NarrowsM.seq _ fun _ =>
    NarrowsM.seq _ fun heapSizes => NarrowsM.seq _ fun _ => NarrowsM.seq _ fun valid =>
    NarrowsM.seq _ fun _ => ?_
  refine (NarrowsM.ofExcept (checkHeapSizes_narrows base heapSizes ds)).bind ?_ fun checked => ?_
  · intro checked s x s' hrun hquiet
    obtain ⟨⟨counts, counted⟩, _, hcounts, hrun⟩ := run_bind_ok_iff.mp hrun
    obtain ⟨_, _, _, hrun⟩ := run_bind_ok_iff.mp hrun
    cases hrun
    exact nil_of_appendsM (readRowCounts_appends _ _ _ _) hcounts hquiet
  · refine (readRowCounts_narrows valid.toNat _ _ checked).bind ?_ fun counted => ?_
    · intro counted s x s' hrun hquiet
      obtain ⟨_, _, _, hrun⟩ := run_bind_ok_iff.mp hrun
      cases hrun
      exact hquiet
    · exact NarrowsM.refl _ _

theorem readStreamHeader_appends (base : Nat) (strictness : Strictness) :
    Commutes logged loggedSnd (readStreamHeader base strictness) := by
  unfold readStreamHeader
  refine Commutes.after _ fun _ => Commutes.after _ fun majorVersion => Commutes.after _ fun minorVersion =>
    Commutes.after _ fun heapSizes => Commutes.after _ fun _ => Commutes.after _ fun valid =>
    Commutes.after _ fun declaredSorted => ?_
  refine (Commutes.ofExcept (checkHeapSizes_appends base strictness heapSizes)).comp ?_
  refine (readRowCounts_appends strictness valid.toNat _ _).comp ?_
  intro ds x
  simp only [map_bind, map_pure]
  rfl

/-! ## The layout loop -/

theorem clampRowCount_narrows (dataLen base rowSize count : Nat) (st : LayoutState) :
    Narrows (fun x => x.2.2 = []) (clampRowCount dataLen base .strict rowSize count st)
      (clampRowCount dataLen base .permissive rowSize count st) :=
  Narrows.test (by simp)

theorem layoutTable_narrows (dataLen base : Nat) (h : StreamHeader) (st : LayoutState)
    (id : TableId) :
    Narrows (fun st' => st'.diagnostics = []) (layoutTable dataLen base .strict h st id)
      (layoutTable dataLen base .permissive h st id) := by
  unfold layoutTable
  refine (clampRowCount_narrows _ _ _ _ st).bind ?_ fun _ => Narrows.refl _ _
  intro clamped st' hst hquiet
  cases hst
  exact hquiet

theorem layoutTable_appends (dataLen base : Nat) (strictness : Strictness) (h : StreamHeader)
    (id : TableId) :
    Commutes LayoutState.logged LayoutState.logged
      (fun st => layoutTable dataLen base strictness h st id) := by
  intro ds st
  obtain ⟨layouts, cursor, exhausted, diagnostics⟩ := st
  have hclamp : clampRowCount dataLen base strictness (rowSizeOf h id) (h.rowCounts id)
      ⟨layouts, cursor, exhausted, ds ++ diagnostics⟩ =
        (fun x => (x.1, x.2.1, ds ++ x.2.2)) <$> clampRowCount dataLen base strictness
          (rowSizeOf h id) (h.rowCounts id) ⟨layouts, cursor, exhausted, diagnostics⟩ := by
    unfold clampRowCount
    by_cases hcut : 0 < h.rowCounts id ∧
        (exhausted = true ∨ dataLen - cursor < h.rowCounts id * rowSizeOf h id)
    · rw [if_pos hcut, if_pos hcut]
      split
      · rfl
      · rw [List.append_assoc]
        rfl
    · rw [if_neg hcut, if_neg hcut]
      rfl
  simp only [layoutTable, LayoutState.logged, hclamp, bind_map_left, map_bind, map_pure]

theorem layoutTables_appends (dataLen base : Nat) (strictness : Strictness) (h : StreamHeader)
    (ids : List TableId) :
    Commutes LayoutState.logged LayoutState.logged (layoutTables dataLen base strictness h ids) := by
  induction ids with
  | nil => exact Commutes.ok fun _ _ => rfl
  | cons id ids ih => exact (layoutTable_appends dataLen base strictness h id).comp ih

/-- The layout loop keeps the diagnostics that are there. -/
theorem nil_of_layoutTables {dataLen base : Nat} {strictness : Strictness} {h : StreamHeader}
    {ids : List TableId} {st st' : LayoutState}
    (hrun : layoutTables dataLen base strictness h ids st = .ok st')
    (hquiet : st'.diagnostics = []) : st.diagnostics = [] := by
  have hst : st = LayoutState.logged st.diagnostics { st with diagnostics := [] } := by
    rw [LayoutState.logged, List.append_nil]
  rw [hst] at hrun
  obtain ⟨_, _, rfl⟩ := (layoutTables_appends dataLen base strictness h ids).ok_iff.mp hrun
  exact (List.append_eq_nil_iff.mp hquiet).1

theorem layoutTables_narrows (dataLen base : Nat) (h : StreamHeader) (ids : List TableId) :
    ∀ st, Narrows (fun st' => st'.diagnostics = []) (layoutTables dataLen base .strict h ids st)
      (layoutTables dataLen base .permissive h ids st) := by
  induction ids with
  | nil =>
      intro st
      exact Narrows.refl _ _
  | cons id ids ih =>
      intro st
      refine (layoutTable_narrows dataLen base h st id).bind ?_ fun mid => ih mid
      intro mid st' hrest hquiet
      exact nil_of_layoutTables hrest hquiet

namespace Tables

/-! ## Sortedness -/

theorem verifyTable_narrows (t : Tables) (id : TableId) (bits : Nat) (ds : List Diagnostic) :
    Narrows (fun x => x.2 = []) (t.verifyTable .strict id bits ds)
      (t.verifyTable .permissive id bits ds) := by
  unfold verifyTable
  cases sortKeyColumn id with
  | none => exact Narrows.refl _ _
  | some column =>
      by_cases hcount : t.rowCount id ≤ 1
      · simp only [if_pos hcount]
        exact Narrows.refl _ _
      · simp only [if_neg hcount]
        refine Narrows.seq _ fun previous => Narrows.seq _ fun sorted => ?_
        cases sorted with
        | true => exact Narrows.refl _ _
        | false =>
            -- only a table that is declared sorted and is not makes a difference
            by_cases hdeclared : t.isDeclaredSorted id = true
            · simp only [Strictness.isStrict, hdeclared, Bool.false_eq_true, false_and, and_self,
                if_false, if_true]
              refine ⟨?_, ?_⟩
              · intro a ha
                cases ha
              · intro a ha hquiet
                cases ha
                simp at hquiet
            · simp only [hdeclared, Bool.false_eq_true, and_false, if_false]
              exact Narrows.refl _ _

theorem verifyTable_appends (t : Tables) (strictness : Strictness) (id : TableId) (bits : Nat) :
    Commutes logged loggedSnd (t.verifyTable strictness id bits) := by
  unfold verifyTable
  cases sortKeyColumn id with
  | none => exact Commutes.ok fun _ _ => rfl
  | some column =>
      refine Commutes.ite (Commutes.ok fun _ _ => rfl) ?_
      refine Commutes.after _ fun previous => Commutes.after _ fun sorted => ?_
      refine Commutes.ite (Commutes.pure fun _ _ => rfl)
        (Commutes.ite (Commutes.error _) (Commutes.pure fun _ _ => ?_))
      rw [loggedSnd, logged, List.append_assoc]

theorem verifyTables_appends (t : Tables) (strictness : Strictness) (ids : List TableId) :
    ∀ bits, Commutes logged loggedSnd (t.verifyTables strictness ids bits) := by
  induction ids with
  | nil =>
      intro bits
      exact Commutes.ok fun _ _ => rfl
  | cons id ids ih =>
      intro bits
      refine (t.verifyTable_appends strictness id bits).comp ?_
      intro ds x
      exact ih x.1 ds x.2

theorem verifyTables_narrows (t : Tables) (ids : List TableId) :
    ∀ bits ds, Narrows (fun x => x.2 = []) (t.verifyTables .strict ids bits ds)
      (t.verifyTables .permissive ids bits ds) := by
  induction ids with
  | nil =>
      intro bits ds
      exact Narrows.refl _ _
  | cons id ids ih =>
      intro bits ds
      refine (t.verifyTable_narrows id bits ds).bind ?_ fun mid => ih mid.1 mid.2
      intro mid x hrest hquiet
      exact nil_of_appends (t.verifyTables_appends _ ids _) hrest hquiet

/-! ## The stream -/

/-- What a stream that is laid out consists of. -/
theorem parseLayouts_ok_iff {data : List UInt8} {base : Nat} {uncompressed : Bool}
    {strictness : Strictness} {ds : List Diagnostic} {x : Tables × List Diagnostic} :
    parseLayouts data base uncompressed strictness ds = .ok x ↔
      ∃ h ds' r st, (readStreamHeader base strictness ds).run
          (Reader.new data base tableStreamContext) = .ok (h, ds') r ∧
        layoutTables data.length base strictness h TableId.all
          { layouts := fun _ => .default, cursor := r.position, exhausted := false
            diagnostics := ds' } = .ok st ∧
        x = ({ data, base, majorVersion := h.majorVersion, minorVersion := h.minorVersion
               heapSizes := h.heapSizes, valid := h.valid, declaredSorted := h.declaredSorted
               verifiedSorted := 0, uncompressed, extraData := h.extraData
               layouts := st.layouts }, st.diagnostics) := by
  unfold parseLayouts
  constructor
  · intro hx
    split at hx
    · cases hx
    · rename_i h ds' r hrun
      obtain ⟨st, hst, hpure⟩ := ok_bind_iff.mp hx
      cases hpure
      exact ⟨h, ds', r, st, hrun, hst, rfl⟩
  · rintro ⟨h, ds', r, st, hrun, hst, rfl⟩
    simp only [hrun, hst]
    rfl

theorem parseLayouts_narrows (data : List UInt8) (base : Nat) (uncompressed : Bool)
    (ds : List Diagnostic) :
    Narrows (fun x => x.2 = []) (parseLayouts data base uncompressed .strict ds)
      (parseLayouts data base uncompressed .permissive ds) := by
  have hheader := readStreamHeader_narrows base ds
  have hlayout (h : StreamHeader) (ds' : List Diagnostic) (r : Reader) :=
    layoutTables_narrows data.length base h TableId.all
      { layouts := fun _ => .default, cursor := r.position, exhausted := false, diagnostics := ds' }
  refine ⟨?_, ?_⟩
  · intro x hx
    obtain ⟨h, ds', r, st, hrun, hst, rfl⟩ := parseLayouts_ok_iff.mp hx
    exact parseLayouts_ok_iff.mpr
      ⟨h, ds', r, st, hheader.up _ _ _ hrun, (hlayout h ds' r).up st hst, rfl⟩
  · intro x hx hquiet
    obtain ⟨h, ds', r, st, hrun, hst, rfl⟩ := parseLayouts_ok_iff.mp hx
    have hds : ds' = [] := nil_of_layoutTables hst hquiet
    exact parseLayouts_ok_iff.mpr
      ⟨h, ds', r, st, hheader.down _ _ _ hrun hds, (hlayout h ds' r).down st hst hquiet, rfl⟩

/-- Strict mode reads the table streams that leave no diagnostic, and no others. -/
theorem parse_narrows (data : List UInt8) (base : Nat) (uncompressed : Bool)
    (ds : List Diagnostic) :
    Narrows (fun x => x.2 = []) (parse data base uncompressed .strict ds)
      (parse data base uncompressed .permissive ds) := by
  unfold parse
  refine (parseLayouts_narrows data base uncompressed ds).bind ?_ fun laid => ?_
  · intro laid x hrun hquiet
    obtain ⟨⟨verified, ds'⟩, hverify, hpure⟩ := ok_bind_iff.mp hrun
    cases hpure
    exact nil_of_appends (verifyTables_appends _ _ TableId.all _) hverify hquiet
  · refine (verifyTables_narrows laid.1 TableId.all 0 laid.2).bind ?_ fun _ => Narrows.refl _ _
    intro verified x hpure hquiet
    cases hpure
    exact hquiet

theorem parseLayouts_appends (data : List UInt8) (base : Nat) (uncompressed : Bool)
    (strictness : Strictness) :
    Commutes logged loggedSnd (parseLayouts data base uncompressed strictness) := by
  intro ds l
  have happends := readStreamHeader_appends base strictness
  unfold parseLayouts
  cases hrun : (readStreamHeader base strictness l).run (Reader.new data base tableStreamContext) with
  | error e r =>
      simp only [happends.run_error hrun]
      rfl
  | ok x r =>
      have hheader : (readStreamHeader base strictness (logged ds l)).run
          (Reader.new data base tableStreamContext) = .ok (loggedSnd ds x) r :=
        happends.run_ok_iff.mpr ⟨x, hrun, rfl⟩
      have hlayout := layoutTables_appends data.length base strictness x.1 TableId.all ds
        { layouts := fun _ => .default, cursor := r.position, exhausted := false
          diagnostics := x.2 }
      simp only [hheader, loggedSnd, map_bind, map_pure]
      rw [LayoutState.logged] at hlayout
      rw [hlayout, bind_map_left]
      rfl

/-- The format of the stream is the one that is asked for. -/
theorem parse_uncompressed {data : List UInt8} {base : Nat} {uncompressed : Bool}
    {strictness : Strictness} {ds : List Diagnostic} {x : Tables × List Diagnostic}
    (hok : parse data base uncompressed strictness ds = .ok x) :
    x.1.uncompressed = uncompressed := by
  obtain ⟨laid, hlaid, hok⟩ := ok_bind_iff.mp hok
  obtain ⟨verified, _, hpure⟩ := ok_bind_iff.mp hok
  obtain ⟨_, _, _, _, _, _, rfl⟩ := parseLayouts_ok_iff.mp hlaid
  cases hpure
  rfl

/-- What a table stream parses to does not depend on the diagnostics before it. -/
theorem parse_appends (data : List UInt8) (base : Nat) (uncompressed : Bool)
    (strictness : Strictness) :
    Commutes logged loggedSnd (parse data base uncompressed strictness) := by
  refine (parseLayouts_appends data base uncompressed strictness).comp ?_
  intro ds x
  have hverify := x.1.verifyTables_appends strictness TableId.all 0 ds x.2
  rw [logged] at hverify
  simp only [verifySortedness, loggedSnd, hverify, bind_map_left, map_bind, map_pure]

end Tables

end Cildec
