import Cildec.Metadata.RoundTrip
import Cildec.Tables.Pdb

/-!
# Standalone Portable PDBs (`src/metadata.rs`, `src/tables/mod.rs`)

A standalone PDB is a region with a `#Pdb` stream and a table stream without the tables of the
image. The parser notes that there is a `#Pdb` stream and does not look into it.

* `PdbFile`: such a region, but for what its rows hold;
* `pdb_reads_back_iff`: all rows are read back exactly when no column is widened by the row
  counts of the image;
* `largePdb_misread`: a scope of a method far back.
-/

namespace Cildec

open Wire

namespace Metadata

/-! ## The region -/

/-- A standalone PDB but for what its rows hold: the root, the table stream and the streams
before and after it. -/
structure PdbFile where
  majorVersion : UInt16
  minorVersion : UInt16
  reserved : UInt32
  version : List UInt8
  flags : UInt16
  before : List NamedStream
  tableName : List UInt8
  tables : PdbTables
  later : List NamedStream
  version_nul : 0 ∈ version
  version_fits : version.length < 2 ^ 32
  names_nulFree : ∀ s ∈ before ++ later, 0 ∉ s.name
  streams_fit : before.length + 1 + later.length < 2 ^ 16
  /-- The table stream is the first that has a name of one. -/
  tableName_eq : tableName = tablesName ∨ tableName = uncompressedName
  before_other : ∀ s ∈ before, s.name ≠ tablesName ∧ s.name ≠ uncompressedName
  pdb_stream : ⟨pdbName, tables.pdb.bytes⟩ ∈ before ++ later
  placed_fits : ∀ data : List UInt8, data.length = tables.size →
    ∀ e ∈ placed version (before ++ ⟨tableName, data⟩ :: later),
      e.1 < 2 ^ 32 ∧ e.2.data.length < 2 ^ 32

namespace PdbFile

variable (f : PdbFile) (c : f.tables.Content)

def streams : List NamedStream := f.before ++ ⟨f.tableName, f.tables.bytes c⟩ :: f.later

theorem tableName_nulFree : 0 ∉ f.tableName := by
  rcases f.tableName_eq with h | h
  · rw [h]
    decide
  · rw [h]
    decide

theorem streams_nulFree : ∀ s ∈ f.streams c, 0 ∉ s.name := by
  intro s hs
  rcases List.mem_append.mp hs with hbefore | hs
  · exact f.names_nulFree s (List.mem_append_left _ hbefore)
  · rcases List.mem_cons.mp hs with rfl | hlater
    · exact f.tableName_nulFree
    · exact f.names_nulFree s (List.mem_append_right _ hlater)

theorem streams_length : (f.streams c).length < 2 ^ 16 := by
  have hfit := f.streams_fit
  rw [streams, List.length_append, List.length_cons]
  omega

theorem streams_placed : ∀ e ∈ placed f.version (f.streams c),
    e.1 < 2 ^ 32 ∧ e.2.data.length < 2 ^ 32 :=
  f.placed_fits (f.tables.bytes c) (f.tables.bytes_length c)

/-- The region with rows in its tables. -/
def region : Region where
  majorVersion := f.majorVersion
  minorVersion := f.minorVersion
  reserved := f.reserved
  version := f.version
  flags := f.flags
  streams := f.streams c
  version_nul := f.version_nul
  version_fits := f.version_fits
  names_nulFree := f.streams_nulFree c
  streams_fit := f.streams_length c
  placed_fits := f.streams_placed c

/-- The rows are read back, each at its RID and no others. -/
def ReadsBack : Prop :=
  ∃ m, parse (f.region c).bytes = .ok m ∧
    ∀ table rid row, m.tables.row table rid = .ok row ↔
      1 ≤ rid ∧ (c.rows table)[rid - 1]? = some row

/-! ## What is parsed -/

/-- The table stream is found. -/
theorem exists_tableEntry : ∃ e, (f.region c).tableEntry = some e ∧
    e.2 = ⟨f.tableName, f.tables.bytes c⟩ := by
  have hbefore : f.before.find? (fun s => s.name == tablesName || s.name == uncompressedName) =
      none := by
    refine List.find?_eq_none.mpr fun s hs => ?_
    obtain ⟨htables, huncompressed⟩ := f.before_other s hs
    simp [htables, huncompressed]
  have hname : (f.tableName == tablesName || f.tableName == uncompressedName) = true := by
    simpa using f.tableName_eq
  have hfind : (f.streams c).find? (fun s => s.name == tablesName || s.name == uncompressedName) =
      some ⟨f.tableName, f.tables.bytes c⟩ := by
    rw [streams, List.find?_append, hbefore, Option.none_or]
    exact List.find?_cons_of_pos hname
  have hentries := (f.region c).entries_snd
  change _ = f.streams c at hentries
  rw [← hentries, List.find?_map] at hfind
  exact Option.map_eq_some_iff.mp hfind

/-- The region is accepted, with the tables that the parser makes of the table stream. -/
theorem exists_parse : ∃ m base uncompressed ds, parse (f.region c).bytes = .ok m ∧
    Tables.parse (f.tables.bytes c) base uncompressed .permissive [] = .ok (m.tables, ds) := by
  obtain ⟨e, hentry, hstream⟩ := f.exists_tableEntry c
  have haccept : ∀ e', (f.region c).tableEntry = some e' →
      TablesAcceptable 0 .permissive e' := by
    intro e' he'
    obtain rfl : e = e' := Option.some.inj (hentry.symm.trans he')
    obtain ⟨t, ds, hparse⟩ := f.tables.exists_parse c (satAdd 0 e.1)
      (e.2.name == uncompressedName) []
    refine ⟨(t, ds), ?_⟩
    rw [hstream] at hparse ⊢
    exact hparse
  obtain ⟨m, hparse, hdecoded⟩ := (f.region c).parseAt_bytes 0 haccept
  obtain ⟨ds, htables⟩ := hdecoded.tables e hentry
  rw [hstream] at htables
  exact ⟨m, _, _, ds, hparse, htables⟩

/-- A row that does not fit the widths of the table stream alone is not read back. -/
theorem not_readsBack {table : TableId} {row : Row table} (hrow : row ∈ c.rows table)
    (hfits : ¬ CellsFit f.tables.localWidth (columnsOf table) row) : ¬ f.ReadsBack c := by
  rintro ⟨m, hparse, hrows⟩
  obtain ⟨m', _, _, _, hparse', htables⟩ := f.exists_parse c
  obtain rfl : m' = m := Except.ok.inj (hparse'.symm.trans hparse)
  obtain ⟨i, hi⟩ := List.mem_iff_getElem?.mp hrow
  have hread : m'.tables.row table (i + 1) = .ok row := (hrows table (i + 1) row).mpr ⟨by omega, hi⟩
  exact hfits (f.tables.row_fits_local htables hread)

/-- Where the widths agree, all rows are read back. -/
theorem readsBack_of_agree (h : f.tables.WidthsAgree) : f.ReadsBack c := by
  obtain ⟨m, base, uncompressed, ds, hparse, htables⟩ := f.exists_parse c
  obtain ⟨t, ds', hparse', _, hrows⟩ :=
    (c.toTableStream h).parse_bytes [] base uncompressed []
  rw [List.append_nil, c.bytes_toTableStream h, htables] at hparse'
  cases hparse'
  exact ⟨m, hparse, hrows⟩

end PdbFile

/-- All rows that a PDB of these row counts can hold are read back exactly when no table with
rows has a column that only the row counts of the image make wide. -/
theorem pdb_reads_back_iff (f : PdbFile) :
    (∀ c : f.tables.Content, f.ReadsBack c) ↔ f.tables.NoneWidened := by
  rw [← f.tables.widthsAgree_iff]
  constructor
  · intro hreads table hrows kind hkind
    by_contra hne
    -- references to row 2 ^ 16 do not fit the narrower width
    have hmem : wideCells f.tables.widened (columnsOf table) ∈ f.tables.wideContent.rows table :=
      List.mem_replicate.mpr ⟨hrows, rfl⟩
    exact f.not_readsBack _ hmem (f.tables.wideCells_not_fit ⟨kind, hkind, hne⟩) (hreads _)
  · intro hagree c
    exact f.readsBack_of_agree c hagree

/-! ## A scope of a method far back -/

/-- An image with 65536 methods. -/
def largePdbStream : PdbStream where
  id := List.replicate 20 0
  entryPoint := 0
  referenced := 0x40
  counts _ := 0x10000
  id_length := List.length_replicate
  referenced_typeSystem slot h := by
    have hslot : slot = 6 := by
      have hpow : UInt64.toNat 0x40 = 2 ^ 6 := rfl
      rw [hpow, Nat.testBit_two_pow] at h
      simpa [eq_comm] using h
    rw [hslot]
    decide

theorem largeValid_known (slot : Nat)
    (h : (UInt64.toNat 0x0024000000000000).testBit slot) : (TableId.fromU8 slot).isSome :=
  valid_known_of_low (by decide) slot h

theorem largeHeapSizes_bits : (0 : UInt8) &&& ~~~(0x01 ||| 0x02 ||| 0x04 ||| 0x40) = 0 := by
  decide

/-- One scope in one import scope. -/
def largeTables : PdbTables where
  pdb := largePdbStream
  reserved := 0
  majorVersion := 2
  minorVersion := 0
  heapSizes := 0
  reserved2 := 1
  valid := 0x0024000000000000
  sorted := 0
  extra := 0
  count
    | .localScope => 1
    | .importScope => 1
    | _ => 0
  heapSizes_bits := largeHeapSizes_bits
  valid_known := largeValid_known
  valid_count table h := by
    cases table <;> first | exact absurd rfl h | decide
  count_lt table := by
    cases table <;> decide
  typeSystem_empty table h := by
    cases table <;> first | rfl | cases h

/-- A scope of the last method. -/
def largeScope : Row .localScope :=
  (⟨0x10000⟩, ⟨1⟩, ⟨1⟩, ⟨1⟩, (0 : UInt32), (10 : UInt32), ())

/-- The scope the method is imported into, at the top. -/
def largeImports : Row .importScope := (⟨0⟩, ⟨0⟩, ())

theorem largeScope_fits : CellsFit largeTables.width (columnsOf .localScope) largeScope :=
  ⟨trivial, by decide, trivial, by decide, trivial, by decide, trivial, by decide, trivial,
    by decide, trivial, by decide, trivial⟩

theorem largeImports_fits : CellsFit largeTables.width (columnsOf .importScope) largeImports :=
  ⟨trivial, by decide, trivial, by decide, trivial⟩

def largeContent : largeTables.Content where
  rows
    | .localScope => [largeScope]
    | .importScope => [largeImports]
    | _ => []
  length_eq table := by
    cases table <;> rfl
  fits table row h := by
    cases table with
    | localScope =>
        obtain rfl := List.mem_singleton.mp h
        exact largeScope_fits
    | importScope =>
        obtain rfl := List.mem_singleton.mp h
        exact largeImports_fits
    | _ => cases h

theorem largeStreams_fit : [(⟨pdbName, largePdbStream.bytes⟩ : NamedStream)].length + 1 +
    ([] : List NamedStream).length < 2 ^ 16 := by
  decide

theorem largePlaced_fits (data : List UInt8) (hdata : data.length = largeTables.size) :
    ∀ e ∈ placed [0x50, 0x44, 0x42, 0x20, 0x76, 0x31, 0x2E, 0x30, 0, 0, 0, 0]
      ([⟨pdbName, largePdbStream.bytes⟩] ++ ⟨tablesName, data⟩ :: []),
      e.1 < 2 ^ 32 ∧ e.2.data.length < 2 ^ 32 := by
  intro e he
  have hsize : data.length = 54 := hdata
  have hpdb : largePdbStream.bytes.length = 36 := by decide
  have hstart : ∀ pdb : List UInt8, payloadStart
      [0x50, 0x44, 0x42, 0x20, 0x76, 0x31, 0x2E, 0x30, 0, 0, 0, 0]
      [⟨pdbName, pdb⟩, ⟨tablesName, data⟩] = 60 := by
    intro pdb
    simp [payloadStart, nextMultipleOf4, pdbName, tablesName]
  simp only [placed, List.singleton_append, startsFrom, hstart, hpdb] at he
  rcases List.mem_cons.mp he with rfl | he
  · rw [hpdb]
    decide
  · obtain rfl := List.mem_singleton.mp he
    show 60 + 36 < 2 ^ 32 ∧ data.length < 2 ^ 32
    omega

def largePdb : PdbFile where
  majorVersion := 1
  minorVersion := 1
  reserved := 0
  version := [0x50, 0x44, 0x42, 0x20, 0x76, 0x31, 0x2E, 0x30, 0, 0, 0, 0]
  flags := 0
  before := [⟨pdbName, largePdbStream.bytes⟩]
  tableName := tablesName
  tables := largeTables
  later := []
  version_nul := by decide
  version_fits := by decide
  names_nulFree := by
    intro s hs
    obtain rfl := List.mem_singleton.mp hs
    decide
  streams_fit := largeStreams_fit
  tableName_eq := .inl rfl
  before_other := by
    intro s hs
    obtain rfl := List.mem_singleton.mp hs
    decide
  pdb_stream := List.mem_singleton.mpr rfl
  placed_fits := largePlaced_fits

/-- The scope is not read back: its method does not fit in two bytes. -/
theorem largePdb_misread : ∃ m, parse (largePdb.region largeContent).bytes = .ok m ∧
    m.tables.row .localScope 1 ≠ .ok largeScope := by
  obtain ⟨m, _, _, _, hparse, htables⟩ := largePdb.exists_parse largeContent
  refine ⟨m, hparse, fun hrow => ?_⟩
  obtain ⟨_, hmethod, _⟩ := largeTables.row_fits_local htables hrow
  exact absurd hmethod (by decide)

end Metadata

end Cildec
