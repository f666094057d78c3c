import Cildec.Lib.Transport
import Cildec.Tables.Header
import Cildec.Tables.Geometry

/-!
# The table stream at another offset

Everything that names a place names it from the base of the reader: moving the base by `b`
moves every offset in an error or a diagnostic by `b` (as far as a `usize` reaches) and changes
nothing else.

* `Tables.carries_parse`: the parse of a table stream;
* `Tables.carries_row`: the rows of a parsed one.
-/

namespace Cildec

open Wire

/-! ## Offsets -/

/-- The same error `b` bytes further on. -/
def Error.moved (b : Nat) (e : Error) : Error := { e with offset := e.offset.map (satAdd · b) }

/-- The same diagnostic `b` bytes further on. -/
def Diagnostic.moved (b : Nat) (d : Diagnostic) : Diagnostic :=
  { d with offset := d.offset.map (satAdd · b) }

/-- What a step returns beside its diagnostics stays as it is. -/
def notesMoved {α : Type} (b : Nat) (x : α × List Diagnostic) : α × List Diagnostic :=
  (x.1, x.2.map (Diagnostic.moved b))

variable {b : Nat}

theorem satAdd_right_comm (a b c : Nat) : satAdd (satAdd a b) c = satAdd (satAdd a c) b := by
  unfold satAdd
  omega

/-- Within a `usize` nothing saturates. -/
theorem satAdd_add {base n : Nat} (h : base + n + b ≤ usizeMax) :
    satAdd base b + n = satAdd (base + n) b := by
  unfold satAdd
  omega

/-! ## The reader -/

namespace Reader

/-- The same reader `b` bytes further on in the input. -/
def moved (b : Nat) (r : Reader) : Reader := { r with base := satAdd r.base b }

theorem moved_absolute (b : Nat) (r : Reader) : (r.moved b).absolute = satAdd r.absolute b :=
  satAdd_right_comm r.base b r.pos

theorem moved_err (b : Nat) (r : Reader) (kind : ErrorKind) :
    (r.moved b).err kind = (r.err kind).moved b := by
  rw [err, moved_absolute]
  rfl

theorem transports_take (n : Nat) : Transports (moved b) (Error.moved b) id (take n) (take n) := by
  intro r
  by_cases h : n ≤ r.remaining
  · rw [take_run h, take_run (r := r.moved b) h]
    rfl
  · rw [take_run_error (Nat.not_le.mp h), take_run_error (r := r.moved b) (Nat.not_le.mp h),
      moved_err]
    rfl

theorem transports_u8 : Transports (moved b) (Error.moved b) id u8 u8 := by
  intro r
  by_cases h : r.pos < r.data.length
  · simp only [u8, EStateM.run_bind, EStateM.run_get, moved, h, dif_pos, EStateM.run_set]
    rfl
  · have h' : ¬ (r.moved b).pos < (r.moved b).data.length := h
    simp only [u8, EStateM.run_bind, EStateM.run_get, h, h', dif_neg, not_false_eq_true, moved_err]
    rfl

theorem transports_u16 : Transports (moved b) (Error.moved b) id u16 u16 :=
  (transports_take 2).bind fun _ _ _ _ => Transports.pure _

theorem transports_u32 : Transports (moved b) (Error.moved b) id u32 u32 :=
  (transports_take 4).bind fun _ _ _ _ => Transports.pure _

theorem transports_u64 : Transports (moved b) (Error.moved b) id u64 u64 :=
  (transports_take 8).bind fun _ _ _ _ => Transports.pure _

theorem transports_seek (n : Nat) : Transports (moved b) (Error.moved b) id (seek n) (seek n) := by
  intro r
  by_cases h : n ≤ r.data.length
  · have h' : n ≤ (r.moved b).data.length := h
    simp only [seek, EStateM.run_bind, EStateM.run_get, h, h', dif_pos, EStateM.run_set]
    rfl
  · have h' : ¬ n ≤ (r.moved b).data.length := h
    simp only [seek, EStateM.run_bind, EStateM.run_get, h, h', dif_neg, not_false_eq_true,
      EStateM.run_throw, moved_err]
    rfl

end Reader

/-! ## The stream header -/

theorem carries_checkHeapSizes {base : Nat} (s : Strictness) (heapSizes : UInt8)
    (ds : List Diagnostic) (hroom : base + 6 + b ≤ usizeMax) :
    Carries (Error.moved b) (List.map (Diagnostic.moved b)) (checkHeapSizes base s heapSizes ds)
      (checkHeapSizes (satAdd base b) s heapSizes (ds.map (Diagnostic.moved b))) := by
  unfold checkHeapSizes
  rw [satAdd_add hroom]
  refine Carries.ite (fun _ => ?_) fun _ => Carries.ok ds
  refine Carries.ite (fun _ => Carries.error _) fun _ => ?_
  rw [Carries, carry, List.map_append]
  rfl

theorem transports_readRowCounts (s : Strictness) (valid : Nat) :
    ∀ (slots : List Nat) (counts : TableId → Nat) (ds : List Diagnostic),
      Transports (Reader.moved b) (Error.moved b) (notesMoved b)
        (readRowCounts s valid slots counts ds)
        (readRowCounts s valid slots counts (ds.map (Diagnostic.moved b)))
  | [], counts, ds => Transports.pure (counts, ds)
  | slot :: slots, counts, ds => by
      unfold readRowCounts
      refine Transports.ite (fun _ => ?_) fun _ => transports_readRowCounts s valid slots counts ds
      refine Transports.bind Transports.get fun r _ _ _ => ?_
      rw [Reader.moved_absolute]
      refine Transports.bind Reader.transports_u32 fun count _ _ _ => ?_
      -- the count of an unknown table is reported where it stands
      cases TableId.fromU8 slot with
      | some id => exact transports_readRowCounts s valid slots _ ds
      | none =>
          refine Transports.ite (fun _ => Transports.throw _) fun _ => ?_
          have htail := transports_readRowCounts s valid slots counts
            (ds ++ [Diagnostic.new .reservedTablePresent r.absolute slot])
          rwa [List.map_append] at htail

theorem transports_readExtraData (heapSizes : UInt8) :
    Transports (Reader.moved b) (Error.moved b) id (readExtraData heapSizes)
      (readExtraData heapSizes) :=
  Transports.ite (fun _ => Reader.transports_u32.bind fun _ _ _ _ => Transports.pure _)
    fun _ => Transports.pure _

theorem transports_readStreamHeader {base : Nat} (s : Strictness) (ds : List Diagnostic)
    (hroom : base + 6 + b ≤ usizeMax) :
    Transports (Reader.moved b) (Error.moved b) (notesMoved b) (readStreamHeader base s ds)
      (readStreamHeader (satAdd base b) s (ds.map (Diagnostic.moved b))) := by
  refine Transports.bind Reader.transports_u32 fun reserved _ _ _ => ?_
  refine Transports.bind Reader.transports_u8 fun majorVersion _ _ _ => ?_
  refine Transports.bind Reader.transports_u8 fun minorVersion _ _ _ => ?_
  refine Transports.bind Reader.transports_u8 fun heapSizes _ _ _ => ?_
  refine Transports.bind Reader.transports_u8 fun reserved2 _ _ _ => ?_
  refine Transports.bind Reader.transports_u64 fun valid _ _ _ => ?_
  refine Transports.bind Reader.transports_u64 fun declaredSorted _ _ _ => ?_
  refine Transports.bind (Transports.ofExcept (carries_checkHeapSizes s heapSizes ds hroom))
    fun ds _ _ _ => ?_
  refine Transports.bind (transports_readRowCounts s valid.toNat _ _ ds) fun counts _ _ _ => ?_
  refine Transports.bind (transports_readExtraData heapSizes) fun extraData _ _ _ => ?_
  exact Transports.pure _

/-! ## Table geometry -/

def LayoutState.moved (b : Nat) (st : LayoutState) : LayoutState :=
  { st with diagnostics := st.diagnostics.map (Diagnostic.moved b) }

section Layout

variable {dataLen base : Nat} (s : Strictness) (h : StreamHeader)

theorem carries_layoutTable {st : LayoutState} (id : TableId)
    (hroom : base + st.cursor + b ≤ usizeMax) :
    Carries (Error.moved b) (LayoutState.moved b) (layoutTable dataLen base s h st id)
      (layoutTable dataLen (satAdd base b) s h (st.moved b) id) := by
  have hclamp : Carries (Error.moved b) (fun x => (x.1, notesMoved b x.2))
      (clampRowCount dataLen base s (rowSizeOf h id) (h.rowCounts id) st)
      (clampRowCount dataLen (satAdd base b) s (rowSizeOf h id) (h.rowCounts id) (st.moved b)) := by
    simp only [clampRowCount, LayoutState.moved, satAdd_add hroom]
    refine Carries.ite (fun _ => ?_) fun _ => Carries.ok _
    refine Carries.ite (fun _ => Carries.error _) fun _ => ?_
    simp only [Carries, carry, notesMoved, List.map_append]
    rfl
  refine hclamp.bind fun x _ => ?_
  exact Carries.ok _

/-- The cursor stays inside the data, so that its offsets do not saturate. -/
theorem carries_layoutTables (hroom : base + dataLen + b ≤ usizeMax) :
    ∀ (ids : List TableId) (st : LayoutState), st.cursor ≤ dataLen →
      Carries (Error.moved b) (LayoutState.moved b) (layoutTables dataLen base s h ids st)
        (layoutTables dataLen (satAdd base b) s h ids (st.moved b))
  | [], st, _ => Carries.ok st
  | id :: ids, st, hcursor => by
      refine Carries.bind (carries_layoutTable s h id (by omega)) fun st' hst' => ?_
      obtain ⟨kept, exhausted, ds, hclamp, rfl⟩ := layoutTable_ok_iff.mp hst'
      -- the rows that are kept end inside the data
      have hfits := clampRowCount_fits hclamp
      exact carries_layoutTables hroom ids _ (by
        show st.cursor + kept * rowSizeOf h id ≤ dataLen
        omega)

end Layout

/-! ## Rows -/

namespace Tables

variable (t : Tables)

/-- The same stream `b` bytes further on in the input. -/
def moved (b : Nat) (t : Tables) : Tables := { t with base := satAdd t.base b }

@[simp] theorem moved_base (b : Nat) : (t.moved b).base = satAdd t.base b := rfl
@[simp] theorem moved_data (b : Nat) : (t.moved b).data = t.data := rfl
@[simp] theorem moved_layout (b : Nat) (table : TableId) :
    (t.moved b).layout table = t.layout table := rfl

theorem carries_rowBytes (table : TableId) (rid : Nat) :
    Carries (Error.moved b) id (t.rowBytes table rid) ((t.moved b).rowBytes table rid) := by
  simp only [rowBytes, moved_layout, moved_data, moved_base]
  refine Carries.ite (fun _ => Carries.error _) fun _ => ?_
  cases hslice : slice? t.data ((t.layout table).dataOffset + (rid - 1) * (t.layout table).rowSize)
    ((t.layout table).dataOffset + (rid - 1) * (t.layout table).rowSize +
      (t.layout table).rowSize) with
  | some bytes => exact Carries.ok bytes
  | none =>
      rw [satAdd_right_comm t.base b]
      exact Carries.error _

theorem carries_rawColumn (table : TableId) (rid column : Nat) :
    Carries (Error.moved b) id (t.rawColumn table rid column)
      ((t.moved b).rawColumn table rid column) := by
  simp only [rawColumn, moved_layout, moved_base]
  refine Carries.ite (fun _ => Carries.error _) fun _ => ?_
  refine Carries.bind (carries_rowBytes t table rid) fun bytes _ => ?_
  cases hread : readUintAt bytes ((t.layout table).columnOffsets.getD column 0)
    ((t.layout table).columnWidths.getD column 0) with
  | some value =>
      simp only [id, hread]
      exact Carries.ok value
  | none =>
      simp only [id, hread]
      exact Carries.error _

theorem carries_sortedFrom (table : TableId) (column : Nat) :
    ∀ (previous : Nat) (rids : List Nat),
      Carries (Error.moved b) id (t.sortedFrom table column previous rids)
        ((t.moved b).sortedFrom table column previous rids)
  | _, [] => Carries.ok true
  | previous, rid :: rids => by
      refine Carries.bind (carries_rawColumn t table rid column) fun value _ => ?_
      exact Carries.ite (fun _ => Carries.ok false)
        fun _ => carries_sortedFrom table column value rids

theorem carries_verifyTable (s : Strictness) (id : TableId) (bits : Nat) (ds : List Diagnostic) :
    Carries (Error.moved b) (notesMoved b) (t.verifyTable s id bits ds)
      ((t.moved b).verifyTable s id bits (ds.map (Diagnostic.moved b))) := by
  unfold verifyTable
  cases sortKeyColumn id with
  | none => exact Carries.ok (bits, ds)
  | some column =>
      refine Carries.ite (fun _ => Carries.ok _) fun _ => ?_
      refine Carries.bind (carries_rawColumn t id 1 column) fun previous _ => ?_
      refine Carries.bind (carries_sortedFrom t id column previous _) fun sorted _ => ?_
      refine Carries.ite (fun _ => Carries.ok _) fun _ => ?_
      refine Carries.ite (fun _ => Carries.error _) fun _ => ?_
      have hnote := Carries.ok (ε := Error) (g := Error.moved b) (h := notesMoved b)
        (bits, ds ++ [Diagnostic.new .tableNotSorted t.base id.toU8])
      rwa [notesMoved, List.map_append] at hnote

theorem carries_verifyTables (s : Strictness) :
    ∀ (ids : List TableId) (bits : Nat) (ds : List Diagnostic),
      Carries (Error.moved b) (notesMoved b) (t.verifyTables s ids bits ds)
        ((t.moved b).verifyTables s ids bits (ds.map (Diagnostic.moved b)))
  | [], bits, ds => Carries.ok (bits, ds)
  | id :: ids, bits, ds => by
      refine Carries.bind (carries_verifyTable t s id bits ds) fun x _ => ?_
      exact carries_verifyTables s ids x.1 x.2

/-! ## The whole stream -/

theorem carries_parseLayouts {data : List UInt8} {base : Nat} (uncompressed : Bool)
    (s : Strictness) (ds : List Diagnostic) (hroom : base + 6 + b ≤ usizeMax)
    (hdata : base + data.length + b ≤ usizeMax) :
    Carries (Error.moved b) (fun x => (x.1.moved b, x.2.map (Diagnostic.moved b)))
      (parseLayouts data base uncompressed s ds)
      (parseLayouts data (satAdd base b) uncompressed s (ds.map (Diagnostic.moved b))) := by
  have hheader := transports_readStreamHeader s ds hroom (Reader.new data base tableStreamContext)
  have hnew : (Reader.new data base tableStreamContext).moved b =
      Reader.new data (satAdd base b) tableStreamContext := rfl
  rw [hnew] at hheader
  unfold parseLayouts
  rw [hheader]
  cases hrun : (readStreamHeader base s ds).run (Reader.new data base tableStreamContext) with
  | error e r => exact Carries.error e
  | ok x r =>
      obtain ⟨h, ds⟩ := x
      obtain ⟨_, hend, hle⟩ := readStreamHeader_spec hrun
      refine Carries.bind (carries_layoutTables s h hdata TableId.all _ (hend ▸ hle)) fun st _ => ?_
      exact Carries.ok _

/-- The parse of a stream that starts elsewhere, where its offsets fit in a `usize`. -/
theorem carries_parse {data : List UInt8} {base : Nat} (uncompressed : Bool) (s : Strictness)
    (ds : List Diagnostic) (hroom : base + 6 + b ≤ usizeMax)
    (hdata : base + data.length + b ≤ usizeMax) :
    Carries (Error.moved b) (fun x => (x.1.moved b, x.2.map (Diagnostic.moved b)))
      (parse data base uncompressed s ds)
      (parse data (satAdd base b) uncompressed s (ds.map (Diagnostic.moved b))) := by
  refine Carries.bind (carries_parseLayouts uncompressed s ds hroom hdata) fun x _ => ?_
  refine Carries.bind (carries_verifyTables x.1 s TableId.all 0 x.2) fun y _ => ?_
  exact Carries.ok _

/-! ## Typed rows -/

end Tables

def RowCursor.moved (b : Nat) (c : RowCursor) : RowCursor := { c with base := satAdd c.base b }

theorem RowCursor.transports_uint :
    Transports (RowCursor.moved b) (Error.moved b) id RowCursor.uint RowCursor.uint := by
  refine Transports.bind Transports.get fun c _ _ _ => ?_
  refine Transports.ite (fun _ => Transports.throw _) fun _ => ?_
  have hset : Transports (RowCursor.moved b) (Error.moved b) id
      (set { c with column := c.column + 1 } : EStateM Error RowCursor PUnit)
      (set { c.moved b with column := c.column + 1 }) := fun _ => rfl
  refine Transports.bind hset fun _ _ _ _ => ?_
  cases hread : readUintAt c.bytes (c.layout.columnOffsets.getD c.column 0)
    (c.layout.columnWidths.getD c.column 0) with
  | some value =>
      simp only [RowCursor.moved, hread]
      exact Transports.pure value
  | none =>
      simp only [RowCursor.moved, hread, satAdd_right_comm c.base b]
      exact Transports.throw _

theorem CodedIndex.carries_decode (kind : CodedIndex) (value offset : Nat) :
    Carries (Error.moved b) id (kind.decode value offset) (kind.decode value (satAdd offset b)) := by
  simp only [CodedIndex.decode]
  cases kind.tables[value &&& kind.tagMask]?.join with
  | some table => exact Carries.ok _
  | none => exact Carries.error _

theorem RowCursor.transports_coded (kind : CodedIndex) :
    Transports (RowCursor.moved b) (Error.moved b) id (RowCursor.coded kind)
      (RowCursor.coded kind) := by
  refine Transports.bind Transports.get fun c _ _ _ => ?_
  refine Transports.bind RowCursor.transports_uint fun value _ _ _ => ?_
  simp only [RowCursor.moved, satAdd_right_comm c.base b]
  exact Transports.ofExcept (kind.carries_decode value _)

theorem transports_readCell (kind : ColumnKind) :
    Transports (RowCursor.moved b) (Error.moved b) id (readCell kind) (readCell kind) := by
  have hplain : ∀ {α : Type} (f : Nat → α), Transports (RowCursor.moved b) (Error.moved b) id
      (RowCursor.uint >>= fun v => pure (f v)) (RowCursor.uint >>= fun v => pure (f v)) :=
    fun f => RowCursor.transports_uint.bind fun _ _ _ _ => Transports.pure _
  cases kind with
  | u16 => exact hplain UInt16.ofNat
  | u32 => exact hplain UInt32.ofNat
  | string => exact hplain fun v => StringIndex.mk (UInt32.ofNat v)
  | blob => exact hplain fun v => BlobIndex.mk (UInt32.ofNat v)
  | guid => exact hplain fun v => GuidIndex.mk (UInt32.ofNat v)
  | rid target => exact hplain fun v => (Rid.mk (UInt32.ofNat v) : Rid target)
  | coded kind => exact RowCursor.transports_coded kind

theorem transports_readCells :
    ∀ kinds : List ColumnKind,
      Transports (RowCursor.moved b) (Error.moved b) id (readCells kinds) (readCells kinds)
  | [] => Transports.pure ()
  | kind :: kinds => (transports_readCell kind).bind fun _ _ _ _ =>
      (transports_readCells kinds).bind fun _ _ _ _ => Transports.pure _

namespace Tables

/-- The rows are the same, and what is wrong with a row is wrong `b` bytes further on. -/
theorem carries_row (t : Tables) (table : TableId) (rid : Nat) :
    Carries (Error.moved b) id (t.row table rid) ((t.moved b).row table rid) := by
  refine Carries.bind (t.carries_rowBytes table rid) fun bytes _ => ?_
  have hcells := transports_readCells (b := b) (columnsOf table)
    { bytes, layout := t.layout table, column := 0
      base := satAdd t.base ((t.layout table).dataOffset + (rid - 1) * (t.layout table).rowSize) }
  simp only [RowCursor.moved, satAdd_right_comm _ _ b] at hcells
  simp only [id, moved_layout, moved_base, hcells]
  cases (readCells (columnsOf table)).run _ with
  | ok cells c => exact Carries.ok cells
  | error e c => exact Carries.error e

end Tables

end Cildec
