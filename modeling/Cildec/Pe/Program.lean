import Cildec.Body.Offsets
import Cildec.Display.Members
import Cildec.Heaps.Text
import Cildec.Il.Blocks
import Cildec.Pe.Managed
import Cildec.Signature.RoundTrip

/-!
# A program is read back (`src/pe.rs`, `src/metadata.rs`, `src/body.rs`, `src/il/mod.rs`)

What a managed image is written for are its methods: each has a name, a signature and code, and
its code names texts. A `Program` is a managed file whose method rows name, through their
columns, where these were written: in the heaps and behind an RVA.

* `read_back`: every method row that is read leads to its method, through the heaps and the
  disassembler;
* `methods_displayed`: the full name of every method renders its signature around its name.
-/

namespace Cildec

open Wire

def MethodDefRow.name (method : MethodDefRow) : StringIndex := method.2.2.2.1

def MethodDefRow.signature (method : MethodDefRow) : BlobIndex := method.2.2.2.2.1

/-- What a method row stands for. -/
structure Method where
  name : String
  signature : MethodSig
  /-- Nothing for a method without a body. -/
  code : List Instruction

/-- The code of a body to be written. -/
def Body.code : Body → List UInt8
  | .tiny code _ => code
  | .fat body => body.code

theorem Body.code_parsed (b : Body) (rva : UInt32) : (b.parsed rva).code = b.code := by
  cases b <;> rfl

theorem Body.code_length_lt (b : Body) : b.code.length < 2 ^ 32 := by
  cases b with
  | tiny code short =>
      show code.length < 2 ^ 32
      omega
  | fat body => exact body.code_short

/-- `bs` stands in a heap at an index. -/
def HeldAt (heap : List UInt8) (index : Nat) (bs : List UInt8) : Prop :=
  ∃ pre post, heap = pre ++ (bs ++ post) ∧ pre.length = index

/-- A managed file, with the methods that its method rows stand for and the texts that their
code loads. -/
structure Program where
  linked : ManagedFile
  method : Row .methodDef → Method
  literal : UserStringToken → String
  names_held : ∀ row ∈ linked.tables.rows .methodDef,
    Char.ofNat 0 ∉ (method row).name.toList ∧
      HeldAt (linked.region.dataOf Metadata.stringsName) (MethodDefRow.name row).value.toNat
        (nameBytes (method row).name)
  signatures_held : ∀ row ∈ linked.tables.rows .methodDef,
    (method row).signature.Normal SignatureOptions.default.limit false ∧
      (method row).signature.depth ≤ SignatureOptions.default.limit ∧
      (method row).signature.enc.length < 2 ^ 29 ∧
      HeldAt (linked.region.dataOf Metadata.blobName) (MethodDefRow.signature row).value.toNat
        (prefixed (method row).signature.enc)
  code_assembled : ∀ row ∈ linked.tables.rows .methodDef, ∀ b, linked.body row = some b →
    Tiles 0 (method row).code b.code.length ∧ (∀ i ∈ (method row).code, i.Encodable) ∧
      encAll (method row).code = b.code
  literals_held : ∀ row ∈ linked.tables.rows .methodDef, ∀ i ∈ (method row).code, ∀ token,
    i.operand = .string token → 2 * (encodeUtf16 (literal token).toList).length + 1 < 2 ^ 29 ∧
      ∃ flag, HeldAt (linked.region.dataOf Metadata.userStringsName) token.offset
        (literalBytes (literal token, flag))

/-! ## The heaps -/

/-- A name is read where it was written. -/
theorem StringsHeap.str_held {heap : StringsHeap} {index : Nat} {name : String}
    (hnul : Char.ofNat 0 ∉ name.toList) (h : HeldAt heap.span.data index (nameBytes name)) :
    heap.str index = .ok name := by
  obtain ⟨⟨data, base⟩⟩ := heap
  obtain ⟨pre, post, rfl, rfl⟩ := h
  exact StringsHeap.str_written base hnul

/-- So is a blob. -/
theorem BlobHeap.get_held {heap : BlobHeap} {index : Nat} {blob : List UInt8}
    (hshort : blob.length < 2 ^ 29) (h : HeldAt heap.span.data index (prefixed blob)) :
    heap.get index = .ok blob := by
  obtain ⟨⟨data, base⟩⟩ := heap
  obtain ⟨pre, post, rfl, rfl⟩ := h
  exact BlobHeap.get_of_entry (Span.entry_prefixed base "#Blob" hshort)

/-- So is a text, with its flag. -/
theorem UserStringsHeap.getAt_held {heap : UserStringsHeap} {offset : Nat} {text : String}
    {flag : UInt8} (hshort : 2 * (encodeUtf16 text.toList).length + 1 < 2 ^ 29)
    (h : HeldAt heap.span.data offset (literalBytes (text, flag))) :
    ∃ s, heap.getAt offset = .ok s ∧ s.toStringLossy = text := by
  obtain ⟨⟨data, base⟩⟩ := heap
  obtain ⟨pre, post, rfl, rfl⟩ := h
  exact ⟨_, UserStringsHeap.getAt_written base hshort, UserString.toStringLossy_written text flag⟩

namespace Program

variable (p : Program)

/-- A signature is read back from the blob it was written to. -/
theorem signature_eq {row : Row .methodDef} (hrow : row ∈ p.linked.tables.rows .methodDef)
    {m : Metadata} (hblobs : m.blobs.span.data = p.linked.region.dataOf Metadata.blobName) :
    ∃ blob, m.blobs.get (MethodDefRow.signature row).value.toNat = .ok blob ∧
      MethodSig.parseWith blob .default = .ok (p.method row).signature := by
  obtain ⟨hnormal, hdepth, hshort, hheld⟩ := p.signatures_held row hrow
  refine ⟨(p.method row).signature.enc, BlobHeap.get_held hshort (hblobs ▸ hheld), ?_⟩
  have hspells := (spells_enc SignatureOptions.default.limit SignatureOptions.default.limit).method
    (p.method row).signature false hdepth hnormal
  have hparse := Parser.parsed_of_spells
    (MethodSig.accepts SignatureOptions.default.limit) hspells []
  rw [List.append_nil] at hparse
  exact hparse

/-- The code of a body is disassembled to the instructions it was assembled from. -/
theorem code_eq {row : Row .methodDef} (hrow : row ∈ p.linked.tables.rows .methodDef) {b : Body}
    (hb : p.linked.body row = some b) :
    ∃ body last, MethodBody.fromImage (p.linked.file.image .permissive) row = .ok (some body) ∧
      Yields InstructionIter.next body.instructions ((p.method row).code.map .ok) last := by
  obtain ⟨htiles, henc, hcode⟩ := p.code_assembled row hrow b hb
  obtain ⟨last, hrun⟩ :=
    InstructionIter.exists_yields_encoded b.code_length_lt htiles henc hcode
  refine ⟨b.parsed (MethodDefRow.rva row), last, ?_, ?_⟩
  · rw [p.linked.fromImage_eq hrow, hb]
    rfl
  · rw [MethodBody.instructions, b.code_parsed]
    exact hrun

/-- Reading an image gives back the program it was made from: every method row that is read
leads through its columns to the name and the signature of its method, and through its RVA to
the instructions; and every text the instructions load is found behind their tokens. -/
theorem read_back : ∃ m, (p.linked.file.image .permissive).metadata = .ok m ∧
    m.tables.rowCount .methodDef = (p.linked.tables.rows .methodDef).length ∧
    ∀ rid row, m.tables.row .methodDef rid = .ok row →
      (p.linked.tables.rows .methodDef)[rid - 1]? = some row ∧
      m.strings.str (MethodDefRow.name row).value.toNat = .ok (p.method row).name ∧
      (∃ blob, m.blobs.get (MethodDefRow.signature row).value.toNat = .ok blob ∧
        MethodSig.parseWith blob .default = .ok (p.method row).signature) ∧
      (∀ b, p.linked.body row = some b → ∃ body last,
        MethodBody.fromImage (p.linked.file.image .permissive) row = .ok (some body) ∧
        Yields InstructionIter.next body.instructions ((p.method row).code.map .ok) last) ∧
      (p.linked.body row = none →
        MethodBody.fromImage (p.linked.file.image .permissive) row = .ok none) ∧
      ∀ i ∈ (p.method row).code, ∀ token, i.operand = .string token →
        ∃ s, m.userStrings.get token = .ok s ∧ s.toStringLossy = p.literal token := by
  obtain ⟨m, hmetadata, _, hdecoded, hcount, hrows⟩ := p.linked.metadata_linked
  refine ⟨m, hmetadata, hcount .methodDef, fun rid row hread => ?_⟩
  obtain ⟨_, hget⟩ := (hrows .methodDef rid row).mp hread
  have hrow : row ∈ p.linked.tables.rows .methodDef := List.mem_of_getElem? hget
  obtain ⟨hnul, hname⟩ := p.names_held row hrow
  refine ⟨hget, StringsHeap.str_held hnul (hdecoded.strings ▸ hname),
    p.signature_eq hrow hdecoded.blobs, fun b hb => p.code_eq hrow hb, ?_, ?_⟩
  · intro hnone
    rw [p.linked.fromImage_eq hrow, hnone]
    rfl
  · intro i hi token htoken
    obtain ⟨hshort, flag, hheld⟩ := p.literals_held row hrow i hi token htoken
    exact UserStringsHeap.getAt_held hshort (hdecoded.userStrings ▸ hheld)

/-- A method row that is read, through the pointer table or not, is one that was linked. -/
theorem row_mem {m : Metadata} (hrows : ∀ table rid row, m.tables.row table rid = .ok row ↔
      1 ≤ rid ∧ (p.linked.tables.rows table)[rid - 1]? = some row) {rid : Nat}
    {row : Row .methodDef} (h : m.tables.methodDef rid = .ok row) :
    row ∈ p.linked.tables.rows .methodDef := by
  obtain ⟨physical, _, hread⟩ := ok_bind_iff.mp h
  exact List.mem_of_getElem? ((hrows .methodDef physical row).mp hread).2

/-- Of an image, the full name of every method that is read is rendered: its signature, as it
was written, around the name of its token, which is that of its owner and its own. -/
theorem methods_displayed : ∃ m, (p.linked.file.image .permissive).metadata = .ok m ∧
    ∀ rid row, m.tables.methodDef rid = .ok row → ∃ name text,
      Names.Renders m (.token 0 (Token.new .methodDef rid)) name ∧
      Names.Renders m (.methodSig 0 (p.method row).signature name) text ∧
      Names.Says m (Names.methodDefFull m 0 rid) text ∧
      (rid < 2 ^ 24 → ∀ owner, Names.ownerName m (m.tables.typeOfMethod rid) = .ok owner →
        name = owner ++ "::" ++ (p.method row).name) := by
  obtain ⟨m, hmetadata, _, hdecoded, _, hrows⟩ := p.linked.metadata_linked
  obtain ⟨base, _, hparse⟩ := p.linked.metadata_eq
  rw [hmetadata] at hparse
  have hlen : p.linked.region.bytes.length < 2 ^ 32 :=
    p.linked.region_size ▸ p.linked.cli.metadata.size.toNat_lt
  refine ⟨m, hmetadata, fun rid row hread => ?_⟩
  have hrow := p.row_mem hrows hread
  obtain ⟨blob, hblob, hsig⟩ := p.signature_eq hrow hdecoded.blobs
  obtain ⟨hnul, hheld⟩ := p.names_held row hrow
  have hname : Names.string m (MethodDefRow.name row) = (p.method row).name := by
    have hstr := StringsHeap.str_held hnul (hdecoded.strings ▸ hheld)
    rw [Names.string, StringsHeap.lossy_of_str hstr]
  -- both calls promise a text
  obtain ⟨name, htoken⟩ := Names.total_returns hparse.symm hlen
    (c := .token 0 (Token.new .methodDef rid)) rfl
  obtain ⟨text, htext⟩ := Names.total_returns hparse.symm hlen
    (c := .methodSig 0 (p.method row).signature name) rfl
  refine ⟨name, text, htoken, htext, Names.method_full_iff.mpr
    ⟨row, blob, name, hread, hblob, htoken, .inl ⟨_, hsig, htext⟩⟩, ?_⟩
  intro hrid owner howner
  have hnamed := @Names.method_named m 0 rid row owner hrid (by decide) hread howner
  have hsame := (Names.answers_iff.mpr htoken).symm.trans (Names.answers_iff.mpr hnamed)
  cases hsame
  exact congrArg _ hname

/-! ### A program of one method -/

/-- The method `Main`: its name and its signature stand behind the empty ones. -/
def helloRow : Row .methodDef :=
  ((0x2048 : UInt32), (0 : UInt16), (0 : UInt16), ⟨1⟩, ⟨1⟩, ⟨1⟩, ())

/-- `void ()`. -/
def helloSignature : MethodSig where
  raw := [0x00, 0x00, 0x01]
  callingConvention := .default
  hasThis := false
  explicitThis := false
  returnType := ⟨[], false, .void⟩
  params := []
  varargParams := []

/-- It loads a text and drops it. -/
def helloCode : List Instruction :=
  [⟨0, 5, .ldstr, .string ⟨0x70000001⟩⟩, ⟨5, 1, .pop, .none⟩, ⟨6, 1, .ret, .none⟩]

def helloBody : Body := .tiny [0x72, 0x01, 0x00, 0x00, 0x70, 0x26, 0x2A] (by decide)

def helloTables : TableStream :=
  { ManagedFile.oneMethodTables with
    rows := ManagedFile.onlyRows [helloRow]
    valid_rows := fun table h => by
      cases table <;> first | exact absurd rfl h | decide
    rows_lt := fun table => by
      cases table <;> decide
    ptr_rows := fun table ptr h => by
      cases table <;> cases h <;> exact .inl rfl
    fits := fun table row h => by
      cases table with
      | methodDef =>
          rw [List.mem_singleton.mp h]
          refine ⟨trivial, by decide, trivial, by decide, trivial, by decide, trivial, by decide,
            trivial, by decide, trivial, by decide, trivial⟩
      | _ => cases h }

def helloRegion : Metadata.Region :=
  { ManagedFile.oneMethodRegion with
    streams := [⟨Metadata.tablesName, helloTables.bytes⟩,
      ⟨Metadata.stringsName, [0x00] ++ nameBytes "Main"⟩,
      ⟨Metadata.userStringsName, [0x00] ++ literalBytes ("Hi", 0)⟩,
      ⟨Metadata.blobName, [0x00] ++ prefixed helloSignature.enc⟩]
    names_nulFree := by decide
    streams_fit := by decide
    placed_fits := by decide +kernel }

def helloCli : CliHeader :=
  { ManagedFile.oneMethodCli with
    metadata := ⟨0x2050, UInt32.ofNat helloRegion.bytes.length⟩ }

def helloSection : SectionData :=
  { ManagedFile.oneMethodSection with
    data := helloCli.bytes ++ (helloBody.enc ++ helloRegion.bytes) }

def helloFile : ImageFile where
  headers := ManagedFile.oneMethodHeaders
  sections := [helloSection]
  trailer := []
  sections_fit := by decide
  raw_fits := by decide +kernel
  addresses_fit := by decide +kernel
  addresses_increase := List.pairwise_singleton _ _

def helloLinked : ManagedFile where
  file := helloFile
  directory := ⟨0x2000, 72⟩
  cli := helloCli
  region := helloRegion
  tables := helloTables
  body _ := some helloBody
  directory_at := rfl
  directory_named := ManagedFile.oneMethod.directory_named
  cli_expressible := rfl
  cli_held := ⟨_, helloSection, List.mem_singleton_self _, [], rfl, by decide +kernel, rfl⟩
  region_size := by decide +kernel
  region_held := by
    refine ⟨[], helloSection, List.mem_singleton_self _, helloCli.bytes ++ helloBody.enc, ?_,
      by decide +kernel, by decide +kernel⟩
    rw [List.append_nil, List.append_assoc]
    rfl
  tables_stream := by
    refine ⟨(Metadata.payloadStart helloRegion.version helloRegion.streams,
      ⟨Metadata.tablesName, helloTables.bytes⟩), ?_, rfl⟩
    decide +kernel
  bodies_held row hrow b hb := by
    cases hb
    rw [List.mem_singleton.mp hrow]
    exact ⟨rfl, helloRegion.bytes, helloSection, List.mem_singleton_self _, helloCli.bytes, rfl,
      by decide +kernel, by decide +kernel⟩
  bodiless row _ hnone := by cases hnone

/-- A library whose only method loads a text. -/
def hello : Program where
  linked := helloLinked
  method _ := ⟨"Main", helloSignature, helloCode⟩
  literal _ := "Hi"
  names_held row hrow := by
    rw [List.mem_singleton.mp hrow]
    exact ⟨by decide, [0x00], [], by decide +kernel, rfl⟩
  signatures_held row hrow := by
    have hvoid : (⟨[], false, .void⟩ : Param).Normal SignatureOptions.default.limit false :=
      ⟨normalMods_nil, fun _ => ⟨rfl, rfl⟩, trivial⟩
    rw [List.mem_singleton.mp hrow]
    exact ⟨⟨trivial, by decide, hvoid, trivial, trivial, by decide⟩, by decide, by decide,
      [0x00], [], by decide +kernel, rfl⟩
  code_assembled row _ b hb := by
    cases hb
    have hrun : Yields InstructionIter.next (.new helloBody.code) (helloCode.map .ok) _ :=
      .item rfl (.item rfl (.item rfl (.done rfl)))
    exact InstructionIter.encoded_of_yields (by decide) hrun
  literals_held row _ i hi token htoken := by
    have hload : token = ⟨0x70000001⟩ := by
      rcases List.mem_cons.mp hi with rfl | hi
      · cases htoken
        rfl
      rcases List.mem_cons.mp hi with rfl | hi
      · cases htoken
      rw [List.mem_singleton.mp hi] at htoken
      cases htoken
    rw [hload]
    exact ⟨by decide, 0, [0x00], [], by decide +kernel, rfl⟩

end Program

end Cildec
