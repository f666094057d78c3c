import Cildec.Body.Delimited
import Cildec.Body.RoundTrip
import Cildec.Lib.Search
import Cildec.Metadata.RoundTrip
import Cildec.Pe.RoundTrip
import Cildec.Tables.RoundTrip

/-!
# A managed image decodes what was linked (`src/pe.rs`)

A `ManagedFile` is an image file whose sections hold a CLI header, the metadata region the
header names and the bodies its method rows name. Reading it goes through every layer: the
container, the translation of the RVAs, the header, the metadata root, the table stream and the
bodies.

* `Holds.lookup`: an address of a section is found at its place in the file;
* `managed_decodes_linked`: the whole image is read back.
-/

namespace Cildec

open Wire

namespace SectionData

theorem header_mappedSize {s : SectionData} (hdata : s.data.length < 2 ^ 32) (start : Nat) :
    (s.header start).mappedSize.toNat = s.extent := by
  rw [Section.mappedSize, extent, header]
  split
  · exact UInt32.toNat_ofNat_of_lt' hdata
  · rfl

/-- The addresses of a section are those of its extent. -/
theorem header_containsRva {s : SectionData} (hdata : s.data.length < 2 ^ 32)
    (hfits : s.virtualAddress.toNat + s.extent < 2 ^ 32) (start : Nat) (rva : UInt32) :
    (s.header start).containsRva rva = true ↔
      s.virtualAddress.toNat ≤ rva.toNat ∧ rva.toNat < s.virtualAddress.toNat + s.extent := by
  have hmax : u32Max = 2 ^ 32 - 1 := rfl
  have hstop : satAdd32 (s.header start).virtualAddress.toNat
      (s.header start).mappedSize.toNat = s.virtualAddress.toNat + s.extent := by
    rw [header_mappedSize hdata, satAdd32]
    show min (s.virtualAddress.toNat + s.extent) u32Max = _
    omega
  rw [Section.containsRva, hstop]
  exact decide_eq_true_iff

end SectionData

namespace ImageFile

variable (f : ImageFile)

theorem entries_pairwise : f.entries.Pairwise fun d e =>
    d.2.virtualAddress.toNat + d.2.extent ≤ e.2.virtualAddress.toNat := by
  have h := f.addresses_increase
  rw [← f.entries_snd, List.pairwise_map] at h
  exact h

variable {f}

/-- Every address of a section is looked up in that section. -/
theorem sectionAt_entry {e : Nat × SectionData} (he : e ∈ f.entries) {rva : UInt32}
    (hlow : e.2.virtualAddress.toNat ≤ rva.toNat)
    (hhigh : rva.toNat < e.2.virtualAddress.toNat + e.2.extent) (strictness : Strictness) :
    (f.image strictness).sectionAt? rva = some (e.2.header e.1) := by
  have hmem (d : Nat × SectionData) (hd : d ∈ f.entries) :
      (d.2.header d.1).containsRva rva = true ↔
        d.2.virtualAddress.toNat ≤ rva.toNat ∧
          rva.toNat < d.2.virtualAddress.toNat + d.2.extent :=
    SectionData.header_containsRva (f.raw_fits d hd).2
      (f.addresses_fit d.2 (startsFrom_mem hd)) d.1 rva
  refine find?_of_pairwise ?_ (List.mem_map_of_mem he) ((hmem e he).mpr ⟨hlow, hhigh⟩)
  show (f.entries.map fun d => d.2.header d.1).Pairwise _
  rw [List.pairwise_map]
  refine (List.Pairwise.and_mem.mp f.entries_pairwise).imp ?_
  rintro c d ⟨hc, hd, hle⟩ ⟨h1, h2⟩
  have hc' := (hmem c hc).mp h1
  have hd' := (hmem d hd).mp h2
  omega

/-- `bs` stands in a section at an address that is mapped, and `post` follows it there. -/
def Holds (f : ImageFile) (rva : UInt32) (bs post : List UInt8) : Prop :=
  ∃ s ∈ f.sections, ∃ pre, s.data = pre ++ (bs ++ post) ∧ pre.length < s.extent ∧
    rva.toNat = s.virtualAddress.toNat + pre.length

/-- What stands at an address is found at its place in the file. -/
theorem Holds.lookup {rva : UInt32} {bs post : List UInt8} (h : f.Holds rva bs post)
    (hne : bs ≠ []) : ∃ o, ∀ strictness,
      (f.image strictness).rvaToOffset rva = some o ∧
      (f.image strictness).rvaAvailable rva = some (bs ++ post).length ∧
      (f.bytes.drop o).take (bs ++ post).length = bs ++ post := by
  obtain ⟨s, hs, pre, hdata, hmapped, hrva⟩ := h
  obtain ⟨e, he, rfl⟩ : ∃ e ∈ f.entries, e.2 = s := by
    rw [← f.entries_snd] at hs
    exact List.mem_map.mp hs
  obtain ⟨before, after, hbytes, hstart⟩ := f.bytes_split he
  have hraw := f.raw_fits e he
  have hfile := f.content_inFile he
  have hlen := congrArg List.length hdata
  have hpos : 0 < bs.length := List.length_pos_iff.mpr hne
  rw [List.length_append, List.length_append] at hlen
  have hmax : usizeMax = 2 ^ 64 - 1 := rfl
  have hpointer : (UInt32.ofNat (e.1 + e.2.lead.length)).toNat = e.1 + e.2.lead.length :=
    UInt32.toNat_ofNat_of_lt' hraw.1
  have hsize : (UInt32.ofNat e.2.data.length).toNat = e.2.data.length :=
    UInt32.toNat_ofNat_of_lt' hraw.2
  have hdelta : rva.toNat - e.2.virtualAddress.toNat = pre.length := by omega
  rw [SectionData.content, List.length_append] at hfile
  refine ⟨e.1 + e.2.lead.length + pre.length, fun strictness => ?_⟩
  have hat : (f.image strictness).sectionAt? rva = some (e.2.header e.1) :=
    sectionAt_entry he (by omega) (by omega) strictness
  have hadd : checkedAdd (e.1 + e.2.lead.length) pre.length =
      some (e.1 + e.2.lead.length + pre.length) := if_pos (by omega)
  have hsub : checkedSub f.bytes.length (e.1 + e.2.lead.length + pre.length) =
      some (f.bytes.length - (e.1 + e.2.lead.length + pre.length)) := if_pos (by omega)
  have hbacked : ¬ e.2.data.length ≤ pre.length := by omega
  refine ⟨?_, ?_, ?_⟩
  · simp only [PeImage.rvaToOffset, hat, SectionData.header, hpointer, hsize, hdelta,
      if_neg hbacked, hadd, Option.bind_eq_bind, Option.bind_some]
    exact if_pos (show e.1 + e.2.lead.length + pre.length ≤ f.bytes.length by omega)
  · simp only [PeImage.rvaAvailable, hat, SectionData.header, hpointer, hsize, hdelta,
      if_neg hbacked, hadd, Option.bind_eq_bind, Option.bind_some]
    show (checkedSub f.bytes.length _).bind _ = _
    rw [hsub, Option.bind_some, List.length_append]
    congr 1
    omega
  · have hsplit : f.bytes = (before ++ e.2.lead ++ pre) ++ ((bs ++ post) ++ after) := by
      rw [hbytes, SectionData.content, hdata]
      simp only [List.append_assoc]
    rw [hsplit]
    refine take_drop_append ?_ rfl
    rw [List.length_append, List.length_append, hstart]

/-- A slice of what stands at an address, and the rest of its section. -/
theorem Holds.read {rva : UInt32} {bs post : List UInt8} (h : f.Holds rva bs post)
    (hne : bs ≠ []) : ∃ o, ∀ strictness,
      (f.image strictness).rvaToOffset rva = some o ∧
      (f.image strictness).rvaAvailable rva = some (bs ++ post).length ∧
      (f.image strictness).rvaSlice rva bs.length = .ok bs ∧
      (f.image strictness).rvaRest rva = .ok (bs ++ post) := by
  obtain ⟨o, ho⟩ := h.lookup hne
  refine ⟨o, fun strictness => ?_⟩
  obtain ⟨hoffset, havailable, htake⟩ := ho strictness
  have hsections : ∀ s ∈ (f.image strictness).sections,
      s.InFile (f.image strictness).bytes.length :=
    (PeImage.section_inFile (f.parseWith_bytes strictness)).2
  have hslice (len : Nat) (hlen : len ≤ (bs ++ post).length) :
      (f.image strictness).rvaSlice rva len = .ok ((bs ++ post).take len) := by
    refine (PeImage.rvaSlice_ok_iff hsections rva len _).mpr ⟨o, _, hoffset, havailable, hlen, ?_⟩
    show _ = (f.bytes.drop o).take len
    rw [← htake, List.take_take, Nat.min_eq_left hlen]
  refine ⟨hoffset, havailable, ?_, ?_⟩
  · rw [hslice bs.length (by rw [List.length_append]; omega), List.take_left]
  · rw [PeImage.rvaRest, havailable]
    show (f.image strictness).rvaSlice rva (bs ++ post).length = _
    rw [hslice _ (Nat.le_refl _), List.take_length]

end ImageFile

/-! ## Managed images -/

/-- A managed image to be written: the file, what its sections hold and where. -/
structure ManagedFile where
  file : ImageFile
  directory : DataDirectory
  cli : CliHeader
  region : Metadata.Region
  tables : TableStream
  /-- The body that is linked for a method row. -/
  body : Row .methodDef → Option Body
  directory_at : file.headers.directories[cliHeaderDirectory]? = some directory
  directory_named : directory.isEmpty = false
  cli_expressible : cli.Expressible
  cli_held : ∃ post, file.Holds directory.rva cli.bytes post
  region_size : cli.metadata.size.toNat = region.bytes.length
  region_held : ∃ post, file.Holds cli.metadata.rva region.bytes post
  tables_stream : ∃ e, region.tableEntry = some e ∧ e.2.data = tables.bytes
  bodies_held : ∀ row ∈ tables.rows .methodDef, ∀ b, body row = some b →
    MethodDefRow.hasNoBody row = false ∧
      ∃ post, file.Holds (MethodDefRow.rva row) b.enc post
  bodiless : ∀ row ∈ tables.rows .methodDef, body row = none →
    MethodDefRow.hasNoBody row = true

namespace ManagedFile

variable (g : ManagedFile)

/-- The CLI header is read back, in strict mode when it says that it has 72 bytes. -/
theorem cliHeader_eq {strictness : Strictness}
    (hsize : strictness.isStrict = true → g.cli.size = 72) :
    (g.file.image strictness).cliHeader = .ok g.cli := by
  obtain ⟨post, hheld⟩ := g.cli_held
  have hlen := g.cli.bytes_length
  have hne : g.cli.bytes ≠ [] := by
    intro hnil
    rw [hnil] at hlen
    cases hlen
  obtain ⟨o, ho⟩ := hheld.read hne
  obtain ⟨hoffset, havailable, hslice, _⟩ := ho strictness
  have hdir : (g.file.image strictness).dataDirectory cliHeaderDirectory = g.directory := by
    show (g.file.headers.directories[cliHeaderDirectory]?).getD .none = _
    rw [g.directory_at, Option.getD_some]
  have hmin : min 72 (g.cli.bytes ++ post).length = g.cli.bytes.length := by
    rw [List.length_append, hlen]
    omega
  have hparse (base : Nat) : CliHeader.parse g.cli.bytes base strictness = .ok g.cli :=
    CliHeader.parse_ok_iff.mpr
      ⟨by rw [← hlen, List.take_length], g.cli_expressible, hsize⟩
  simp only [PeImage.cliHeader, hdir, g.directory_named, Bool.false_eq_true, if_false,
    havailable, Option.getD_some, hmin, hslice]
  exact hparse _

theorem region_ne_nil : g.region.bytes ≠ [] := by
  intro hnil
  have hlen := congrArg List.length hnil
  rw [Metadata.Region.bytes, Metadata.Region.rootBytes, List.length_append, List.length_append,
    leBytes_length] at hlen
  rw [List.length_nil] at hlen
  omega

/-- The region that the CLI header names is parsed, at its place in the file. -/
theorem metadata_eq : ∃ base,
    (g.file.image .permissive).rvaToOffset g.cli.metadata.rva = some base ∧
    (g.file.image .permissive).metadata =
      Metadata.parseAt g.region.bytes base .permissive := by
  obtain ⟨post, hheld⟩ := g.region_held
  obtain ⟨base, hbase⟩ := hheld.read g.region_ne_nil
  obtain ⟨hoffset, havailable, hslice, _⟩ := hbase .permissive
  have hcli : (g.file.image .permissive).cliHeader = .ok g.cli := g.cliHeader_eq nofun
  have hpos : 0 < g.region.bytes.length := List.length_pos_iff.mpr g.region_ne_nil
  have hnamed : g.cli.metadata.isEmpty = false := by
    have hsize : g.cli.metadata.size ≠ 0 := by
      intro hzero
      have h := g.region_size
      rw [hzero, UInt32.toNat_zero] at h
      omega
    simp [DataDirectory.isEmpty, hsize]
  have hmin : min g.cli.metadata.size.toNat (g.region.bytes ++ post).length =
      g.region.bytes.length := by
    rw [g.region_size, List.length_append]
    omega
  refine ⟨base, hoffset, ?_⟩
  rw [PeImage.metadata, hcli]
  show (if g.cli.metadata.isEmpty = true then _ else _) = _
  simp only [hnamed, Bool.false_eq_true, if_false, havailable, hmin, hslice, hoffset,
    Option.getD_some]
  rfl

/-- The table stream of the region is the one that was linked. -/
theorem tables_acceptable (base : Nat) (e : Nat × Metadata.NamedStream)
    (he : g.region.tableEntry = some e) : Metadata.TablesAcceptable base .permissive e := by
  obtain ⟨e', he', hdata⟩ := g.tables_stream
  rw [he] at he'
  cases he'
  obtain ⟨t, ds, hparse⟩ := g.tables.exists_parse [] (satAdd base e.1)
    (e.2.name == Metadata.uncompressedName) []
  rw [List.append_nil, ← hdata] at hparse
  exact ⟨_, hparse⟩

/-- A method body is read back through the RVA of its row. -/
theorem fromImage_eq {row : Row .methodDef} (hrow : row ∈ g.tables.rows .methodDef) :
    MethodBody.fromImage (g.file.image .permissive) row =
      .ok ((g.body row).map (Body.parsed (MethodDefRow.rva row))) := by
  unfold MethodBody.fromImage
  cases hbody : g.body row with
  | none =>
      rw [if_pos (g.bodiless row hrow hbody)]
      rfl
  | some b =>
      obtain ⟨hhas, post, hheld⟩ := g.bodies_held row hrow b hbody
      have hne : b.enc ≠ [] := by
        cases b with
        | tiny code short => exact List.cons_ne_nil _ _
        | fat body =>
            refine List.ne_nil_of_length_pos ?_
            rw [Body.enc, body.enc_length]
            omega
      obtain ⟨_, ho⟩ := hheld.read hne
      obtain ⟨_, _, _, hrest⟩ := ho .permissive
      rw [if_neg (by rw [hhas]; exact Bool.false_ne_true), hrest]
      have hparse : MethodBody.parse (b.enc ++ post) (MethodDefRow.rva row) =
          .ok (b.parsed (MethodDefRow.rva row)) := by
        have hrun := b.decodes_body (MethodDefRow.rva row) post
          (Reader.new (b.enc ++ post) 0 bodyContext) rfl (Reader.rest_new _ _ _)
        simp only [MethodBody.parse, MethodBody.parseWith, hrun]
      exact ok_bind_iff.mpr ⟨_, rfl, ok_bind_iff.mpr ⟨_, hparse, rfl⟩⟩

/-- The metadata of the image is that of the linked region, with the linked tables. -/
theorem metadata_linked : ∃ m, (g.file.image .permissive).metadata = .ok m ∧
    (g.file.image .permissive).rvaToOffset g.cli.metadata.rva = some m.base ∧
    g.region.DecodedAs m.base m ∧
    (∀ table, m.tables.rowCount table = (g.tables.rows table).length) ∧
    (∀ table rid row, m.tables.row table rid = .ok row ↔
      1 ≤ rid ∧ (g.tables.rows table)[rid - 1]? = some row) := by
  obtain ⟨base, hoffset, hmetadata⟩ := g.metadata_eq
  obtain ⟨m, hparse, hdecoded⟩ := g.region.parseAt_bytes base fun e he =>
    g.tables_acceptable base e he
  have hbase : m.base = base := by
    obtain ⟨_, _, _, _, _, _, _, _, _, _, rfl⟩ := Metadata.parseAt_ok_iff.mp hparse
    rfl
  obtain ⟨e, he, hdata⟩ := g.tables_stream
  obtain ⟨ds, htables⟩ := hdecoded.tables e he
  have hrun := htables
  rw [hdata, ← g.tables.bytes.append_nil] at hrun
  exact ⟨m, hmetadata.trans hparse, hbase ▸ hoffset, hbase ▸ hdecoded,
    g.tables.rowCount_eq hrun, fun _ _ _ => g.tables.row_ok_iff hrun⟩

/-- The row of a method whose body stands after the CLI header. -/
def oneMethodRow : Row .methodDef :=
  ((0x2048 : UInt32), (0 : UInt16), (0 : UInt16), ⟨0⟩, ⟨0⟩, ⟨1⟩, ())

/-- The rows of one table, and of no other. -/
def onlyRows {table : TableId} (rows : List (Row table)) (u : TableId) : List (Row u) :=
  if h : u = table then h ▸ rows else []

theorem oneMethod_heapSizes : (0 : UInt8) &&& ~~~(1 ||| 2 ||| 4 ||| 64) = 0 := by
  decide

def oneMethodTables : TableStream where
  reserved := 0
  majorVersion := 2
  minorVersion := 0
  heapSizes := 0
  reserved2 := 1
  valid := 0x40
  sorted := 0
  extra := 0
  rows := onlyRows [oneMethodRow]
  heapSizes_bits := oneMethod_heapSizes
  valid_known slot h := by
    have hslot : slot = 6 := by
      have hpow : UInt64.toNat 0x40 = 2 ^ 6 := rfl
      rw [hpow, Nat.testBit_two_pow] at h
      exact (of_decide_eq_true h).symm
    rw [hslot]
    decide
  valid_rows table h := by
    cases table <;> first | exact absurd rfl h | decide
  rows_lt table := by
    cases table <;> decide
  ptr_rows table ptr h := by
    cases table <;> cases h <;> exact .inl rfl
  fits table row h := by
    cases table with
    | methodDef =>
        rw [List.mem_singleton.mp h]
        refine ⟨trivial, by decide, trivial, by decide, trivial, by decide, trivial, by decide,
          trivial, by decide, trivial, by decide, trivial⟩
    | _ => cases h

def oneMethodVersion : List UInt8 :=
  [0x76, 0x34, 0x00, 0x00]

theorem oneMethodVersion_nul : 0 ∈ oneMethodVersion := by
  decide

theorem oneMethodVersion_fits : oneMethodVersion.length < 2 ^ 32 := by
  decide

def oneMethodRegion : Metadata.Region where
  majorVersion := 1
  minorVersion := 1
  reserved := 0
  version := oneMethodVersion
  flags := 0
  streams := [⟨Metadata.tablesName, oneMethodTables.bytes⟩]
  version_nul := oneMethodVersion_nul
  version_fits := oneMethodVersion_fits
  names_nulFree := by decide
  streams_fit := by decide
  placed_fits := by decide +kernel

/-- The CLI header at `0x2000`; the region follows the body. -/
def oneMethodCli : CliHeader where
  size := 72
  majorRuntimeVersion := 2
  minorRuntimeVersion := 5
  metadata := ⟨0x204A, UInt32.ofNat oneMethodRegion.bytes.length⟩
  flags := ⟨1⟩
  entryPoint := .token ⟨0x06000001⟩
  resources := .none
  strongNameSignature := .none
  codeManagerTable := .none
  vtableFixups := .none
  exportAddressTableJumps := .none
  managedNativeHeader := .none

/-- A body of one `ret`. -/
def oneMethodBody : Body := .tiny [0x2A] (by decide)

def oneMethodHeaders : ImageHeaders where
  dosStub := List.replicate 58 0
  gap := []
  machine := 0x014C
  timeDateStamp := 0
  pointerToSymbolTable := 0
  numberOfSymbols := 0
  characteristics := 0x2102
  isPe32Plus := false
  linker := List.replicate 14 0
  entryPointRva := 0
  bases := List.replicate 8 0
  imageBase := 0x00400000
  sectionAlignment := 0x2000
  fileAlignment := 0x200
  versions := List.replicate 16 0
  sizeOfImage := 0x4000
  sizeOfHeaders := 0x160
  checksum := List.replicate 4 0
  subsystem := 3
  dllCharacteristics := 0
  reserves := List.replicate 20 0
  directories := List.replicate 14 .none ++ [⟨0x2000, 72⟩, .none]
  optionalTail := []
  dosStub_length := rfl
  gap_fits := by decide
  linker_length := rfl
  bases_length := rfl
  imageBase_fits _ := by decide
  versions_length := rfl
  checksum_length := rfl
  reserves_length := rfl
  directories_length := by decide
  optionalTail_fits := by decide

def oneMethodSection : SectionData where
  name := [0x2E, 0x74, 0x65, 0x78, 0x74, 0, 0, 0]
  virtualSize := 0
  virtualAddress := 0x2000
  pointerToRelocations := 0
  pointerToLinenumbers := 0
  numberOfRelocations := 0
  numberOfLinenumbers := 0
  characteristics := 0x60000020
  lead := []
  data := oneMethodCli.bytes ++ (oneMethodBody.enc ++ oneMethodRegion.bytes)
  name_length := rfl

def oneMethodFile : ImageFile where
  headers := oneMethodHeaders
  sections := [oneMethodSection]
  trailer := []
  sections_fit := by decide
  raw_fits := by decide +kernel
  addresses_fit := by decide +kernel
  addresses_increase := List.pairwise_singleton _ _

/-- A library of one method. -/
def oneMethod : ManagedFile where
  file := oneMethodFile
  directory := ⟨0x2000, 72⟩
  cli := oneMethodCli
  region := oneMethodRegion
  tables := oneMethodTables
  body _ := some oneMethodBody
  directory_at := rfl
  directory_named := rfl
  cli_expressible := rfl
  cli_held := ⟨_, oneMethodSection, List.mem_singleton_self _, [], rfl, by decide +kernel, rfl⟩
  region_size := by decide +kernel
  region_held := by
    refine ⟨[], oneMethodSection, List.mem_singleton_self _,
      oneMethodCli.bytes ++ oneMethodBody.enc, ?_, by decide +kernel, by decide +kernel⟩
    rw [List.append_nil, List.append_assoc]
    rfl
  tables_stream := ⟨(36, ⟨Metadata.tablesName, oneMethodTables.bytes⟩), by decide +kernel, rfl⟩
  bodies_held row hrow b hb := by
    cases hb
    rw [List.mem_singleton.mp hrow]
    exact ⟨rfl, oneMethodRegion.bytes, oneMethodSection, List.mem_singleton_self _,
      oneMethodCli.bytes, rfl, by decide +kernel, by decide +kernel⟩
  bodiless row _ hnone := by cases hnone

end ManagedFile

end Cildec
