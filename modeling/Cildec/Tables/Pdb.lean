import Cildec.Tables.RoundTrip
import Cildec.Tables.Typed

/-!
# Writing the tables of a Portable PDB

A Portable PDB stands next to an image whose tables its rows refer to. Its `#Pdb` stream holds
the row counts of those tables, and the widths of the columns that refer to them follow these
counts. The parser takes every width from the table stream alone.

* `PdbTables`: a table stream but for its rows, with the `#Pdb` stream beside it;
* `PdbTables.row_fits_local`: whatever row is read fits the widths of the table stream alone;
* `PdbTables.widthsAgree_iff`: where the two agree on the tables that have rows.
-/

namespace Cildec

open Wire

/-- The tables below `0x30`, which describe an image. -/
def TableId.isTypeSystem (table : TableId) : Bool := table.toU8 < 0x30

/-! ## The `#Pdb` stream -/

structure PdbStream where
  id : List UInt8
  entryPoint : UInt32
  referenced : UInt64
  counts : Nat → UInt32
  id_length : id.length = 20
  /-- `ReferencedTypeSystemTables` marks tables of the image. -/
  referenced_typeSystem : ∀ slot, referenced.toNat.testBit slot → slot < 0x30

namespace PdbStream

variable (pdb : PdbStream)

/-- The id, the entry point, the referenced tables and a row count for each of them. -/
def bytes : List UInt8 :=
  pdb.id ++ (leBytes 4 pdb.entryPoint.toNat ++ (leBytes 8 pdb.referenced.toNat ++
    (List.range 64).flatMap (countBytes pdb.referenced.toNat pdb.counts)))

/-- The row count of a table of the image. -/
def referencedRows (table : TableId) : Nat :=
  if pdb.referenced.toNat.testBit table.toU8 then (pdb.counts table.toU8).toNat else 0

end PdbStream

/-! ## The table stream -/

/-- The table stream of a Portable PDB but for what its rows hold. -/
structure PdbTables where
  pdb : PdbStream
  reserved : UInt32
  majorVersion : UInt8
  minorVersion : UInt8
  heapSizes : UInt8
  reserved2 : UInt8
  valid : UInt64
  sorted : UInt64
  extra : UInt32
  count : TableId → Nat
  /-- Only the bits `0x01`, `0x02`, `0x04` and `0x40` are used. -/
  heapSizes_bits : heapSizes &&& ~~~(0x01 ||| 0x02 ||| 0x04 ||| 0x40) = 0
  /-- `Valid` marks known tables, and every table that has rows. -/
  valid_known : ∀ slot, valid.toNat.testBit slot → (TableId.fromU8 slot).isSome
  valid_count : ∀ table, count table ≠ 0 → valid.toNat.testBit table.toU8
  /-- A row count is a `u32`. -/
  count_lt : ∀ table, count table < 2 ^ 32
  /-- The tables of the image are not repeated. -/
  typeSystem_empty : ∀ table, table.isTypeSystem → count table = 0

namespace PdbTables

variable (f : PdbTables)

/-- The rows of a table, in the image or in the PDB. -/
def combinedRows (table : TableId) : Nat :=
  if table.isTypeSystem then f.pdb.referencedRows table else f.count table

/-- The width of a column as the format prescribes it. -/
def width : ColumnKind → Nat := specColumnWidth f.heapSizes f.combinedRows

/-- The width of a column of a stream that nothing stands next to. -/
def localWidth : ColumnKind → Nat := specColumnWidth f.heapSizes f.count

/-- Rows for every table that fit the widths of the format. -/
structure Content where
  rows : (table : TableId) → List (Row table)
  length_eq : ∀ table, (rows table).length = f.count table
  fits : ∀ table, ∀ row ∈ rows table, CellsFit f.width (columnsOf table) row

/-- The row count a slot declares. -/
def slotRows (slot : Nat) : UInt32 :=
  match TableId.fromU8 slot with
  | some table => UInt32.ofNat (f.count table)
  | none => 0

/-- The header of the stream. -/
def raw : RawHeader where
  reserved := f.reserved
  majorVersion := f.majorVersion
  minorVersion := f.minorVersion
  heapSizes := f.heapSizes
  reserved2 := f.reserved2
  valid := f.valid
  sorted := f.sorted
  counts := f.slotRows
  extra := if f.heapSizes &&& 0x40 != 0 then some f.extra else none
  extra_isSome := by
    cases f.heapSizes &&& 0x40 != 0 <;> rfl

/-- The rows of a table. -/
def tableBytes (c : f.Content) (table : TableId) : List UInt8 :=
  (c.rows table).flatMap (encodeCells f.width (columnsOf table))

/-- The serialised stream: the header, then all rows in ascending table order. -/
def bytes (c : f.Content) : List UInt8 := f.raw.bytes ++ TableId.all.flatMap (f.tableBytes c)

/-- How many bytes the stream has, whatever its rows hold. -/
def size : Nat :=
  f.raw.bytes.length +
    (TableId.all.map fun table => f.count table * ((columnsOf table).map f.width).sum).sum

theorem bytes_length (c : f.Content) : (f.bytes c).length = f.size := by
  have htable : ∀ table, (f.tableBytes c table).length =
      f.count table * ((columnsOf table).map f.width).sum := by
    intro table
    rw [← c.length_eq table]
    exact length_flatMap_const fun row _ => encodeCells_length f.width (columnsOf table) row
  rw [bytes, size, List.length_append, List.length_flatMap]
  simp only [htable]

/-! ## What the parser makes of the header -/

theorem rowCounts_eq (table : TableId) : f.raw.header.rowCounts table = f.count table := by
  refine countsAt_eq (fun table => ?_) f.valid_count table
  show (f.slotRows table.toU8).toNat = f.count table
  rw [slotRows, TableId.fromU8_toU8]
  exact UInt32.toNat_ofNat_of_lt' (f.count_lt table)

/-- The `*Ptr` tables belong to the image. -/
theorem ptrSource_empty {table ptr : TableId} (h : table.ptrSource = some ptr) :
    f.count ptr = 0 := by
  refine f.typeSystem_empty ptr ?_
  cases table <;> cases h <;> rfl

theorem columnWidths_eq (table : TableId) :
    columnWidths f.raw.header table = (columnsOf table).map f.localWidth := by
  have hcounts : f.raw.header.rowCounts = f.count := funext f.rowCounts_eq
  refine List.map_congr_left fun kind _ => ?_
  rw [hcounts]
  exact TableStream.columnWidth_eq_spec f.heapSizes
    (fun _ _ hptr => .inl (f.ptrSource_empty hptr)) kind

/-- The stream is accepted. -/
theorem exists_parse (c : f.Content) (base : Nat) (uncompressed : Bool) (ds : List Diagnostic) :
    ∃ t ds', Tables.parse (f.bytes c) base uncompressed .permissive ds = .ok (t, ds') :=
  Tables.parse_permissive_ok uncompressed (decodes_readStreamHeader base .permissive ds
    (heapSizes_known f.heapSizes_bits) f.valid_known (TableId.all.flatMap (f.tableBytes c)) _ trivial
    (Reader.rest_new _ _ _))

end PdbTables

/-! ## Rows that are read fit -/

/-- A cell is no more than the raw value it is read from. -/
theorem cell_fits_of_raw {kind : ColumnKind} {cell : kind.Cell} {v n : Nat}
    (hcell : CellOfRaw kind cell v) (hv : v < n) : CellOk kind cell ∧ cellValue kind cell < n := by
  have hle16 : (UInt16.ofNat v).toNat ≤ v := Nat.mod_le _ _
  have hle32 : (UInt32.ofNat v).toNat ≤ v := Nat.mod_le _ _
  cases kind with
  | u16 =>
      obtain rfl : cell = _ := hcell
      exact ⟨trivial, Nat.lt_of_le_of_lt hle16 hv⟩
  | u32 =>
      obtain rfl : cell = _ := hcell
      exact ⟨trivial, Nat.lt_of_le_of_lt hle32 hv⟩
  | string =>
      obtain rfl : cell = _ := hcell
      exact ⟨trivial, Nat.lt_of_le_of_lt hle32 hv⟩
  | blob =>
      obtain rfl : cell = _ := hcell
      exact ⟨trivial, Nat.lt_of_le_of_lt hle32 hv⟩
  | guid =>
      obtain rfl : cell = _ := hcell
      exact ⟨trivial, Nat.lt_of_le_of_lt hle32 hv⟩
  | rid target =>
      obtain rfl : cell = _ := hcell
      exact ⟨trivial, Nat.lt_of_le_of_lt hle32 hv⟩
  | coded kind =>
      obtain ⟨offset, hdecode⟩ := hcell
      obtain ⟨table, htag, rfl⟩ := CodedIndex.decode_eq_ok_iff.mp hdecode
      have hmem : some table ∈ kind.tables :=
        List.mem_of_getElem? (Option.join_eq_some_iff.mp htag)
      refine ⟨⟨table, Token.table_new table _, hmem⟩, ?_⟩
      -- The tag is the position of the table, and the RID may have lost its high bits.
      have hindex : kind.tables.idxOf (some table) = v % 2 ^ kind.tagBits :=
        (List.findIdx?_eq_some_iff_findIdx_eq.mp (CodedIndex.findIdx_of_tag htag)).2
      have hrid := Nat.mod_le (v / 2 ^ kind.tagBits) (2 ^ 24)
      have hsplit := Nat.div_add_mod' v (2 ^ kind.tagBits)
      have hscaled := Nat.mul_le_mul_right (2 ^ kind.tagBits) hrid
      show codedValue kind (Token.new table (v / 2 ^ kind.tagBits)) < n
      rw [codedValue, Token.table_new, Token.rid_new_mod, TableStream.tagSize_eq, hindex]
      omega

/-- Cells fit the widths that their raw values fit. -/
theorem cellsFit_of_holds {width : ColumnKind → Nat} {value : Nat → Nat} :
    ∀ {kinds : List ColumnKind} {cells : Cells kinds} {i : Nat}, HoldsRaw value kinds cells i →
      (∀ j kind, kinds[j]? = some kind → value (i + j) < 256 ^ width kind) →
      CellsFit width kinds cells
  | [], _, _, _, _ => trivial
  | kind :: kinds, (cell, cells), i, hholds, hvalue => by
      obtain ⟨hok, hlt⟩ := cell_fits_of_raw hholds.1 (hvalue 0 kind rfl)
      refine ⟨hok, hlt, cellsFit_of_holds hholds.2 ?_⟩
      intro j later hlater
      have hnext := hvalue (j + 1) later hlater
      rwa [show i + (j + 1) = i + 1 + j by omega] at hnext

namespace PdbTables

variable (f : PdbTables)

/-- A row that is read fits the widths of the table stream alone. -/
theorem row_fits_local {c : f.Content} {base : Nat} {uncompressed : Bool} {s : Strictness}
    {ds ds' : List Diagnostic} {t : Tables} {table : TableId} {rid : Nat} {row : Row table}
    (hparse : Tables.parse (f.bytes c) base uncompressed s ds = .ok (t, ds'))
    (hrow : t.row table rid = .ok row) : CellsFit f.localWidth (columnsOf table) row := by
  obtain ⟨⟨_, _, hl⟩, _⟩ := Tables.parse_spec hparse
  have hheader : declaredHeader (f.bytes c) = f.raw.header := declaredHeader_bytes _ _
  rw [hheader] at hl
  obtain ⟨hhas, hholds⟩ := hl.row_holds hrow
  refine cellsFit_of_holds hholds fun j kind hkind => ?_
  obtain ⟨hj, rfl⟩ := List.getElem?_eq_some_iff.mp hkind
  have hlayout : (t.layout table).columnWidths = (columnsOf table).map f.localWidth := by
    rw [hl.layout_eq table]
    exact f.columnWidths_eq table
  -- the raw value was read in the width of the layout, which is the local one
  have hraw := (readUintAt_lt_pow (hl.raw_eq hhas hj)).2
  simp only [Tables.rowCursor, hlayout] at hraw
  rw [List.getD_eq_getElem _ _ (by rw [List.length_map]; exact hj), List.getElem_map] at hraw
  rw [Nat.zero_add]
  exact hraw

end PdbTables

/-! ## Widths that agree -/

theorem encodeCells_congr {width width' : ColumnKind → Nat} :
    ∀ {kinds : List ColumnKind} (cells : Cells kinds), (∀ kind ∈ kinds, width kind = width' kind) →
      encodeCells width kinds cells = encodeCells width' kinds cells
  | [], _, _ => rfl
  | kind :: kinds, (cell, cells), hsame => by
      obtain ⟨hkind, hkinds⟩ := List.forall_mem_cons.mp hsame
      rw [encodeCells, encodeCells, hkind, encodeCells_congr cells hkinds]

theorem cellsFit_congr {width width' : ColumnKind → Nat} :
    ∀ {kinds : List ColumnKind} {cells : Cells kinds}, (∀ kind ∈ kinds, width kind = width' kind) →
      CellsFit width kinds cells → CellsFit width' kinds cells
  | [], _, _, _ => trivial
  | kind :: kinds, (cell, cells), hsame, hfits => by
      obtain ⟨hkind, hkinds⟩ := List.forall_mem_cons.mp hsame
      obtain ⟨hok, hlt, hrest⟩ := hfits
      exact ⟨hok, hkind ▸ hlt, cellsFit_congr hkinds hrest⟩

/-! ## Widths that differ -/

/-- The least cell of a column: a reference to nothing, into the first table of its kind. -/
def zeroCell : (kind : ColumnKind) → kind.Cell
  | .u16 => (0 : UInt16)
  | .u32 => (0 : UInt32)
  | .string => StringIndex.mk 0
  | .blob => BlobIndex.mk 0
  | .guid => GuidIndex.mk 0
  | .rid target => (Rid.mk 0 : Rid target)
  | .coded kind => Token.new ((kind.tables.filterMap id).headD .module) 0

/-- A cell that refers to row `2 ^ 16`. -/
def wideCell : (kind : ColumnKind) → kind.Cell
  | .rid target => (Rid.mk 0x10000 : Rid target)
  | .coded kind => Token.new ((kind.tables.filterMap id).headD .module) 0x10000
  | kind => zeroCell kind

/-- The columns that `wide` marks refer to row `2 ^ 16`. -/
def wideCells (wide : ColumnKind → Bool) : (kinds : List ColumnKind) → Cells kinds
  | [] => ()
  | kind :: kinds => (if wide kind then wideCell kind else zeroCell kind, wideCells wide kinds)

theorem zeroCell_fits (kind : ColumnKind) :
    CellOk kind (zeroCell kind) ∧ cellValue kind (zeroCell kind) < 256 := by
  cases kind with
  | coded kind => cases kind <;> exact ⟨⟨_, rfl, by decide⟩, by decide⟩
  | _ => exact ⟨trivial, Nat.zero_lt_succ _⟩

def ColumnKind.isReference : ColumnKind → Bool
  | .rid _ => true
  | .coded _ => true
  | _ => false

theorem wideCell_fits {kind : ColumnKind} (h : kind.isReference = true) :
    CellOk kind (wideCell kind) ∧ 256 ^ 2 ≤ cellValue kind (wideCell kind) ∧
      cellValue kind (wideCell kind) < 256 ^ 4 := by
  cases kind with
  | rid target =>
      have hvalue : cellValue (.rid target) (wideCell (.rid target)) = 0x10000 := rfl
      rw [hvalue]
      exact ⟨trivial, by decide, by decide⟩
  | coded kind => cases kind <;> exact ⟨⟨_, rfl, by decide⟩, by decide, by decide⟩
  | _ => cases h

namespace PdbTables

variable (f : PdbTables)

theorem specColumnWidth_eq (heapSizes : UInt8) (rows : TableId → Nat) (kind : ColumnKind) :
    specColumnWidth heapSizes rows kind = 2 ∨ specColumnWidth heapSizes rows kind = 4 := by
  cases kind with
  | u16 => exact .inl rfl
  | u32 => exact .inr rfl
  | _ =>
      simp only [specColumnWidth, heapIndexWidth]
      split <;> simp

/-- Only references are widened by the rows of the image. -/
theorem isReference_of_widened {kind : ColumnKind} (h : f.localWidth kind ≠ f.width kind) :
    kind.isReference = true := by
  cases kind with
  | rid target => rfl
  | coded kind => rfl
  | _ => exact absurd rfl h

theorem count_le_combinedRows (table : TableId) : f.count table ≤ f.combinedRows table := by
  unfold combinedRows
  split
  · rename_i htype
    rw [f.typeSystem_empty table htype]
    exact Nat.zero_le _
  · exact Nat.le_refl _

/-- The rows of the image never make a column narrower. -/
theorem localWidth_of_widened {kind : ColumnKind} (h : f.localWidth kind ≠ f.width kind) :
    f.localWidth kind = 2 ∧ f.width kind = 4 := by
  -- with fewer rows a width of 2 bytes stays one
  have hnarrow : f.width kind = 2 → f.localWidth kind = 2 := by
    cases kind with
    | rid target =>
        have hle := f.count_le_combinedRows target
        simp only [width, localWidth, specColumnWidth]
        split <;> split <;> omega
    | coded kind =>
        simp only [width, localWidth, specColumnWidth]
        intro hwide
        rw [if_pos]
        split at hwide
        · rename_i hsmall
          intro table hmem
          exact Nat.lt_of_le_of_lt (f.count_le_combinedRows table) (hsmall table hmem)
        · cases hwide
    | _ => exact id
  have hwidth := specColumnWidth_eq f.heapSizes f.combinedRows kind
  have hlocal := specColumnWidth_eq f.heapSizes f.count kind
  rcases hwidth with hwidth | hwidth
  · exact absurd ((hnarrow hwidth).trans hwidth.symm) h
  · rcases hlocal with hlocal | hlocal
    · exact ⟨hlocal, hwidth⟩
    · exact absurd (hlocal.trans hwidth.symm) h

/-- The columns that are widened. -/
def widened (kind : ColumnKind) : Bool := f.localWidth kind != f.width kind

theorem wideCells_fit : ∀ kinds : List ColumnKind,
    CellsFit f.width kinds (wideCells f.widened kinds)
  | [] => trivial
  | kind :: kinds => by
      have hcell : CellOk kind (if f.widened kind then wideCell kind else zeroCell kind) ∧
          cellValue kind (if f.widened kind then wideCell kind else zeroCell kind) <
            256 ^ f.width kind := by
        by_cases hwide : f.widened kind = true
        · have hne := bne_iff_ne.mp hwide
          obtain ⟨hok, _, hlt⟩ := wideCell_fits (f.isReference_of_widened hne)
          rw [if_pos hwide, (f.localWidth_of_widened hne).2]
          exact ⟨hok, hlt⟩
        · obtain ⟨hok, hlt⟩ := zeroCell_fits kind
          rw [if_neg hwide]
          refine ⟨hok, Nat.lt_of_lt_of_le hlt ?_⟩
          rcases specColumnWidth_eq f.heapSizes f.combinedRows kind with hwidth | hwidth
          · rw [width, hwidth]
            decide
          · rw [width, hwidth]
            decide
      exact ⟨hcell.1, hcell.2, wideCells_fit kinds⟩

theorem wideCells_not_fit : ∀ {kinds : List ColumnKind},
    (∃ kind ∈ kinds, f.localWidth kind ≠ f.width kind) →
      ¬ CellsFit f.localWidth kinds (wideCells f.widened kinds)
  | [], hex, _ => by
      obtain ⟨_, hmem, _⟩ := hex
      cases hmem
  | kind :: kinds, hex, hfits => by
      obtain ⟨_, hlt, hrest⟩ := hfits
      by_cases hne : f.localWidth kind = f.width kind
      · rw [List.exists_mem_cons_iff] at hex
        rcases hex with hhead | htail
        · exact hhead hne
        · exact wideCells_not_fit htail hrest
      · have hwide : f.widened kind = true := bne_iff_ne.mpr hne
        have hle := (wideCell_fits (f.isReference_of_widened hne)).2.1
        rw [if_pos hwide, (f.localWidth_of_widened hne).1] at hlt
        omega

/-! ## What the rows can be read back for -/

/-- The tables that have rows have the widths of the format. -/
def WidthsAgree : Prop :=
  ∀ table, f.count table ≠ 0 → ∀ kind ∈ columnsOf table, f.localWidth kind = f.width kind

namespace Content

variable {f} (c : f.Content)

theorem count_ne_zero {table : TableId} (h : c.rows table ≠ []) : f.count table ≠ 0 := by
  rw [← c.length_eq]
  exact fun hnil => h (List.eq_nil_of_length_eq_zero hnil)

theorem valid_rows (table : TableId) (h : c.rows table ≠ []) :
    f.valid.toNat.testBit table.toU8 :=
  f.valid_count table (c.count_ne_zero h)

theorem rows_lt (table : TableId) : (c.rows table).length < 2 ^ 32 := by
  rw [c.length_eq]
  exact f.count_lt table

theorem ptr_rows (table ptr : TableId) (h : table.ptrSource = some ptr) :
    c.rows ptr = [] ∨ (c.rows ptr).length = (c.rows table).length :=
  .inl (List.eq_nil_of_length_eq_zero ((c.length_eq ptr).trans (f.ptrSource_empty h)))

theorem localWidth_eq : specColumnWidth f.heapSizes (fun t => (c.rows t).length) = f.localWidth := by
  rw [funext c.length_eq]
  rfl

theorem fits_local (h : f.WidthsAgree) (table : TableId) (row : Row table)
    (hrow : row ∈ c.rows table) :
    CellsFit (specColumnWidth f.heapSizes fun t => (c.rows t).length) (columnsOf table) row := by
  rw [c.localWidth_eq]
  refine cellsFit_congr (fun kind hkind => ?_) (c.fits table row hrow)
  exact (h table (c.count_ne_zero (List.ne_nil_of_mem hrow)) kind hkind).symm

/-- Where the widths agree, the stream as one that nothing stands next to. -/
def toTableStream (h : f.WidthsAgree) : TableStream where
  reserved := f.reserved
  majorVersion := f.majorVersion
  minorVersion := f.minorVersion
  heapSizes := f.heapSizes
  reserved2 := f.reserved2
  valid := f.valid
  sorted := f.sorted
  extra := f.extra
  rows := c.rows
  heapSizes_bits := f.heapSizes_bits
  valid_known := f.valid_known
  valid_rows := c.valid_rows
  rows_lt := c.rows_lt
  ptr_rows := c.ptr_rows
  fits := c.fits_local h

theorem bytes_toTableStream (h : f.WidthsAgree) : (c.toTableStream h).bytes = f.bytes c := by
  have hslots : (c.toTableStream h).slotRows = f.slotRows := by
    funext slot
    rw [TableStream.slotRows, slotRows]
    cases TableId.fromU8 slot with
    | none => rfl
    | some table => exact congrArg UInt32.ofNat (c.length_eq table)
  have hraw : (c.toTableStream h).raw = f.raw := by
    simp only [TableStream.raw, hslots]
    rfl
  have htable : (c.toTableStream h).tableBytes = f.tableBytes c := by
    funext table
    refine List.flatMap_congr fun row hrow => encodeCells_congr row fun kind hkind => ?_
    rw [← h table (c.count_ne_zero (List.ne_nil_of_mem hrow)) kind hkind, ← c.localWidth_eq]
    rfl
  rw [TableStream.bytes, hraw, htable, bytes]

end Content

/-- Rows whose widened columns refer to row `2 ^ 16`. -/
def wideContent : f.Content where
  rows table := List.replicate (f.count table) (wideCells f.widened (columnsOf table))
  length_eq _ := List.length_replicate
  fits table row hrow := by
    obtain rfl := List.eq_of_mem_replicate hrow
    exact f.wideCells_fit (columnsOf table)

/-- The row counts that the widths depend on: those of the tables of the image that a table
with rows refers to. A coded column is wide in any case where a table of the PDB itself is as
long. -/
def NoneWidened : Prop :=
  (f.count .localScope ≠ 0 ∨ f.count .stateMachineMethod ≠ 0 →
    f.pdb.referencedRows .methodDef < 2 ^ 16) ∧
  (f.count .customDebugInformation ≠ 0 →
    (∀ table ∈ CodedIndex.hasCustomDebugInformation.tables.filterMap id,
      table.isTypeSystem → f.pdb.referencedRows table < 2 ^ 11) ∨
    ∃ table ∈ CodedIndex.hasCustomDebugInformation.tables.filterMap id,
      2 ^ 11 ≤ f.count table)

theorem combinedRows_typeSystem {table : TableId} (h : table.isTypeSystem) :
    f.combinedRows table = f.pdb.referencedRows table := if_pos h

theorem combinedRows_pdb {table : TableId} (h : table.isTypeSystem = false) :
    f.combinedRows table = f.count table := if_neg (by rw [h]; exact Bool.false_ne_true)

theorem ridWidth_agrees_pdb {table : TableId} (h : table.isTypeSystem = false) :
    f.localWidth (.rid table) = f.width (.rid table) := by
  simp only [localWidth, width, specColumnWidth, f.combinedRows_pdb h]

theorem ridWidth_agrees_iff {table : TableId} (h : table.isTypeSystem) :
    f.localWidth (.rid table) = f.width (.rid table) ↔ f.pdb.referencedRows table < 2 ^ 16 := by
  simp only [localWidth, width, specColumnWidth, f.combinedRows_typeSystem h,
    f.typeSystem_empty table h]
  split_ifs <;> simp_all

theorem codedWidth_agrees_iff :
    f.localWidth (.coded .hasCustomDebugInformation) =
        f.width (.coded .hasCustomDebugInformation) ↔
      (∀ table ∈ CodedIndex.hasCustomDebugInformation.tables.filterMap id,
        table.isTypeSystem → f.pdb.referencedRows table < 2 ^ 11) ∨
      ∃ table ∈ CodedIndex.hasCustomDebugInformation.tables.filterMap id,
        2 ^ 11 ≤ f.count table := by
  have hlimit : 16 - tagSize .hasCustomDebugInformation = 11 := by decide
  simp only [localWidth, width, specColumnWidth, hlimit]
  generalize CodedIndex.hasCustomDebugInformation.tables.filterMap id = tables
  -- a long table of the PDB widens the column for both, so the image decides only next to short
  -- ones
  by_cases hlocal : ∀ table ∈ tables, f.count table < 2 ^ 11
  · have hlong : ¬ ∃ table ∈ tables, 2 ^ 11 ≤ f.count table := by
      rintro ⟨table, hmem, hle⟩
      exact absurd (hlocal table hmem) (Nat.not_lt.mpr hle)
    have hcombined : (∀ table ∈ tables, f.combinedRows table < 2 ^ 11) ↔
        ∀ table ∈ tables, table.isTypeSystem → f.pdb.referencedRows table < 2 ^ 11 := by
      refine forall₂_congr fun table hmem => ?_
      cases htype : table.isTypeSystem with
      | true =>
          rw [f.combinedRows_typeSystem htype]
          exact ⟨fun h _ => h, fun h => h rfl⟩
      | false =>
          rw [f.combinedRows_pdb htype]
          exact ⟨fun _ h => absurd h Bool.false_ne_true, fun _ => hlocal table hmem⟩
    rw [if_pos hlocal, or_iff_left hlong, ← hcombined]
    by_cases hall : ∀ table ∈ tables, f.combinedRows table < 2 ^ 11
    · rw [if_pos hall]
      exact iff_of_true rfl hall
    · rw [if_neg hall]
      exact iff_of_false (by decide) hall
  · obtain ⟨table, hmem, hle⟩ : ∃ table ∈ tables, 2 ^ 11 ≤ f.count table := by
      by_contra hno
      exact hlocal fun table hmem => Nat.lt_of_not_le fun hle => hno ⟨table, hmem, hle⟩
    have hcombined : ¬ ∀ table ∈ tables, f.combinedRows table < 2 ^ 11 := by
      intro hall
      have := f.count_le_combinedRows table
      exact absurd (hall table hmem) (by omega)
    rw [if_neg hlocal, if_neg hcombined]
    exact iff_of_true rfl (.inr ⟨table, hmem, hle⟩)

/-- What the tables of a PDB refer to. -/
theorem reference_of_pdb {table : TableId} (h : table.isTypeSystem = false) :
    ∀ kind ∈ columnsOf table, kind.isReference = true →
      (∃ target ∈ TableId.all, kind = .rid target ∧ target.isTypeSystem = false) ∨
      (kind = .rid .methodDef ∧ (table = .localScope ∨ table = .stateMachineMethod)) ∨
      (kind = .coded .hasCustomDebugInformation ∧ table = .customDebugInformation) := by
  cases table <;> first | exact absurd h (by decide) | decide

/-- Where the widths agree, by the row counts. -/
theorem widthsAgree_iff : f.WidthsAgree ↔ f.NoneWidened := by
  have hmethod : f.localWidth (.rid .methodDef) = f.width (.rid .methodDef) ↔
      f.pdb.referencedRows .methodDef < 2 ^ 16 := f.ridWidth_agrees_iff rfl
  have hcoded := f.codedWidth_agrees_iff
  constructor
  · intro h
    refine ⟨?_, ?_⟩
    · rintro (hscope | hmachine)
      · exact hmethod.mp (h .localScope hscope _ List.mem_cons_self)
      · exact hmethod.mp (h .stateMachineMethod hmachine _ List.mem_cons_self)
    · intro hcustom
      exact hcoded.mp (h .customDebugInformation hcustom _ List.mem_cons_self)
  · rintro ⟨hmethods, hcustom⟩ table hrows kind hkind
    have hpdb : table.isTypeSystem = false := by
      by_contra htype
      exact hrows (f.typeSystem_empty table (Bool.eq_true_of_not_eq_false htype))
    by_contra hne
    have hreference := f.isReference_of_widened hne
    -- only references are widened, and of these only those into the image
    rcases reference_of_pdb hpdb kind hkind hreference with
      ⟨target, _, rfl, htarget⟩ | ⟨rfl, htable⟩ | ⟨rfl, rfl⟩
    · exact hne (f.ridWidth_agrees_pdb htarget)
    · refine hne (hmethod.mpr (hmethods ?_))
      rcases htable with rfl | rfl
      · exact .inl hrows
      · exact .inr hrows
    · exact hne (hcoded.mpr (hcustom hrows))

end PdbTables

end Cildec
