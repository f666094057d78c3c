import Cildec.Pe.Encode

/-!
# The container decodes what was encoded (`src/pe.rs`)

The headers are read back part by part; a `seek` that goes forward reads over the bytes in
between.

* `CliHeader.parse_ok_iff`: the bytes of a CLI header and its fields determine each other;
* `ImageFile.parseWith_bytes`: both modes read an image file back.
-/

namespace Cildec

open Wire

/-! ## Fields one after another -/

namespace Reader

/-- Seeking forward reads over what stands between. -/
theorem decodes_seekOver {n m : Nat} {gap : List UInt8} (hm : n + gap.length = m)
    (tl : List UInt8) : Decodes (fun r => r.pos = n) (seek m) gap () tl := by
  intro r hpos hrest
  have hremaining := remaining_of_rest hrest
  have hle : r.pos + gap.length ≤ r.data.length := by
    have hr := r.pos_le
    rw [remaining] at hremaining
    omega
  rw [cursor_advance, advance_eq_moveTo, ← hm, ← hpos]
  exact seek_ok_iff.mpr ⟨hle, rfl⟩

variable {α : Type} {n m : Nat} {cs tl : List UInt8} {b : α}

theorem decodes_seek_bind {f : Unit → Read α} {gap : List UInt8} (hm : n + gap.length = m)
    (hf : Decodes (fun r => r.pos = m) (f ()) cs b tl) :
    Decodes (fun r => r.pos = n) (seek m >>= f) (gap ++ cs) b tl :=
  decodes_bind_pos (decodes_seekOver hm _) hm hf

theorem decodes_take_bind {f : List UInt8 → Read α} {bs : List UInt8} {k : Nat}
    (hk : bs.length = k) (hf : Decodes (fun r => r.pos = n + k) (f bs) cs b tl) :
    Decodes (fun r => r.pos = n) (take k >>= f) (bs ++ cs) b tl := by
  subst hk
  exact decodes_bind_pos (decodes_take _ bs _) rfl hf

theorem decodes_u16_bind {f : UInt16 → Read α} {v : UInt16}
    (hf : Decodes (fun r => r.pos = n + 2) (f v) cs b tl) :
    Decodes (fun r => r.pos = n) (u16 >>= f) (leBytes 2 v.toNat ++ cs) b tl :=
  decodes_bind_pos (decodes_u16 _ v _) (by rw [leBytes_length]) hf

theorem decodes_u32_bind {f : UInt32 → Read α} {v : UInt32}
    (hf : Decodes (fun r => r.pos = n + 4) (f v) cs b tl) :
    Decodes (fun r => r.pos = n) (u32 >>= f) (leBytes 4 v.toNat ++ cs) b tl :=
  decodes_bind_pos (decodes_u32 _ v _) (by rw [leBytes_length]) hf

/-- A number that fits two bytes. -/
theorem decodes_u16_nat (P : Reader → Prop) {v : Nat} (hv : v < 2 ^ 16) (tl : List UInt8) :
    Decodes P u16 (leBytes 2 v) (UInt16.ofNat v) tl := by
  have h := decodes_u16 P (UInt16.ofNat v) tl
  rwa [UInt16.toNat_ofNat_of_lt' hv] at h

/-- A number that fits four bytes. -/
theorem decodes_u32_nat (P : Reader → Prop) {v : Nat} (hv : v < 2 ^ 32) (tl : List UInt8) :
    Decodes P u32 (leBytes 4 v) (UInt32.ofNat v) tl := by
  have h := decodes_u32 P (UInt32.ofNat v) tl
  rwa [UInt32.toNat_ofNat_of_lt' hv] at h

end Reader

namespace PeImage

theorem decodes_directory (P : Reader → Prop) (d : DataDirectory) (tl : List UInt8) :
    Decodes P readDirectory d.bytes d tl :=
  Decodes.bind (Q := fun _ => True) (Reader.decodes_u32 P d.rva _) (fun _ _ _ => trivial)
    ((Reader.decodes_u32 _ d.size tl).map fun size => DataDirectory.mk d.rva size)

theorem reads_directory : Reads readDirectory fun bs d => bs = d.bytes := by
  refine (Reader.reads_u32.bind fun rva => Reader.reads_u32.map (DataDirectory.mk rva)).mono ?_
  rintro bs d ⟨rva, cs, ds, rfl, rfl, size, rfl, rfl⟩
  rfl

theorem decodes_directory_bind {α : Type} {n : Nat} {cs tl : List UInt8} {b : α}
    {f : DataDirectory → Read α} {d : DataDirectory}
    (hf : Decodes (fun r => r.pos = n + 8) (f d) cs b tl) :
    Decodes (fun r => r.pos = n) (readDirectory >>= f) (d.bytes ++ cs) b tl :=
  Reader.decodes_bind_pos (decodes_directory _ d _) (by rw [d.bytes_length]) hf

end PeImage

/-! ## The CLI header -/

namespace CliHeader

theorem directories_bytes (h : CliHeader) :
    h.directories.flatMap DataDirectory.bytes =
      h.resources.bytes ++ (h.strongNameSignature.bytes ++ (h.codeManagerTable.bytes ++
        (h.vtableFixups.bytes ++ (h.exportAddressTableJumps.bytes ++
          h.managedNativeHeader.bytes)))) := by
  simp only [directories, List.flatMap_cons, List.flatMap_nil, List.append_nil]

/-- What a value of `EntryPointToken` is read as holds that value. -/
theorem raw_entryPointOf (flags : CliFlags) (raw : UInt32) : (entryPointOf flags raw).raw = raw := by
  unfold entryPointOf
  split
  · rename_i hzero
    exact hzero.symm
  · split <;> rfl

/-- The fields of an expressible header are read back from its bytes. -/
theorem decodes_fields {h : CliHeader} (hexp : h.Expressible) (tl : List UInt8) :
    Decodes (fun r => r.pos = 0) readFields h.bytes h tl := by
  rw [bytes, directories_bytes]
  refine Reader.decodes_u32_bind ?_
  refine Reader.decodes_u16_bind ?_
  refine Reader.decodes_u16_bind ?_
  refine PeImage.decodes_directory_bind ?_
  refine Reader.decodes_u32_bind ?_
  refine Reader.decodes_u32_bind ?_
  refine PeImage.decodes_directory_bind ?_
  refine PeImage.decodes_directory_bind ?_
  refine PeImage.decodes_directory_bind ?_
  refine PeImage.decodes_directory_bind ?_
  refine PeImage.decodes_directory_bind ?_
  have hlast := (PeImage.decodes_directory (fun r => r.pos = 0 + 4 + 2 + 2 + 8 + 4 + 4 + 8 + 8 +
    8 + 8 + 8) h.managedNativeHeader tl).map fun d => { h with managedNativeHeader := d }
  have hentry : entryPointOf ⟨h.flags.bits⟩ h.entryPoint.raw = h.entryPoint := hexp
  rw [hentry]
  exact hlast

/-- Whatever bytes are read, they are those of the header that is returned. -/
theorem reads_fields : Reads readFields fun bs h => bs = h.bytes ∧ h.Expressible := by
  refine Reader.reads_u32.prepend fun size => ?_
  refine Reader.reads_u16.prepend fun major => ?_
  refine Reader.reads_u16.prepend fun minor => ?_
  refine PeImage.reads_directory.prepend fun metadata => ?_
  refine Reader.reads_u32.prepend fun flags => ?_
  refine Reader.reads_u32.prepend fun entry => ?_
  refine PeImage.reads_directory.prepend fun resources => ?_
  refine PeImage.reads_directory.prepend fun signature => ?_
  refine PeImage.reads_directory.prepend fun table => ?_
  refine PeImage.reads_directory.prepend fun fixups => ?_
  refine PeImage.reads_directory.prepend fun jumps => ?_
  refine (PeImage.reads_directory.map fun native => CliHeader.mk size major minor metadata ⟨flags⟩
    (entryPointOf ⟨flags⟩ entry) resources signature table fixups jumps native).mono ?_
  rintro bs h ⟨native, rfl, rfl⟩
  have hraw := raw_entryPointOf ⟨flags⟩ entry
  refine ⟨?_, ?_⟩
  · rw [bytes, directories_bytes, hraw]
  · rw [Expressible, hraw]

theorem checkSize_ok_iff {strictness : Strictness} {base : Nat} {size : UInt32} {u : Unit} :
    checkSize strictness base size = .ok u ↔ (strictness.isStrict = true → size = 72) := by
  unfold checkSize
  by_cases hsize : size = 72
  · simp [hsize]
  · cases strictness <;> simp [hsize, Strictness.isStrict]

/-- The first 72 bytes and the fields of a header determine each other. Strict mode reads the
headers that say they have 72 bytes. -/
theorem parse_ok_iff {bytes : List UInt8} {base : Nat} {strictness : Strictness}
    {h : CliHeader} :
    parse bytes base strictness = .ok h ↔
      bytes.take 72 = h.bytes ∧ h.Expressible ∧ (strictness.isStrict = true → h.size = 72) := by
  have hrest : (Reader.new bytes base cliContext).rest = bytes := Reader.rest_new _ _ _
  rw [parse]
  constructor
  · intro hparse
    cases hrun : readFields.run (Reader.new bytes base cliContext) with
    | error e r =>
        rw [hrun] at hparse
        cases hparse
    | ok h' r =>
        rw [hrun] at hparse
        obtain ⟨_, hsize, hpure⟩ := ok_bind_iff.mp hparse
        cases hpure
        obtain ⟨bs, happend, _, rfl, hexp⟩ := reads_fields _ _ _ hrun
        rw [Reader.cursor_rest, hrest] at happend
        rw [happend, List.take_left' h.bytes_length]
        exact ⟨rfl, hexp, checkSize_ok_iff.mp hsize⟩
  · rintro ⟨htake, hexp, hsize⟩
    have happend : (Reader.new bytes base cliContext).rest = h.bytes ++ bytes.drop 72 := by
      rw [hrest, ← htake, List.take_append_drop]
    rw [decodes_fields hexp _ _ rfl happend]
    exact ok_bind_iff.mpr ⟨(), checkSize_ok_iff.mpr hsize, rfl⟩

end CliHeader

/-! ## The headers -/

namespace ImageHeaders

variable (h : ImageHeaders)

theorem sizeOfOptionalHeader_lt : h.sizeOfOptionalHeader < 2 ^ 16 := by
  have hdirectories := h.directories_length
  have htail := h.optionalTail_fits
  have hsize : (if h.isPe32Plus then 112 else 96) ≤ 112 := by
    split <;> decide
  rw [sizeOfOptionalHeader, optionalSize]
  omega

/-- The COFF header of an image with `sections` sections, as it is read. -/
def coff (sections : Nat) : PeImage.CoffHeader where
  machine := h.machine
  numberOfSections := UInt16.ofNat sections
  sizeOfOptionalHeader := UInt16.ofNat h.sizeOfOptionalHeader
  characteristics := h.characteristics
  optionalStart := h.optionalStart

theorem decodes_coff {sections : Nat} (hsections : sections < 2 ^ 16) (tl : List UInt8) :
    Decodes (fun r => r.pos = 0) PeImage.readCoffHeader (h.dosBytes ++ h.coffBytes sections)
      (h.coff sections) tl := by
  have hfits : h.peOffset < 2 ^ 32 := h.gap_fits
  have hpe : (UInt32.ofNat h.peOffset).toNat = h.peOffset := UInt32.toNat_ofNat_of_lt' hfits
  rw [dosBytes, coffBytes]
  simp only [List.append_assoc]
  refine Reader.decodes_take_bind rfl ?_
  refine Decodes.ofExcept_bind (a := ()) (if_neg fun hne => hne rfl) ?_
  refine Reader.decodes_seek_bind (by rw [h.dosStub_length]) ?_
  refine Reader.decodes_bind_pos (Reader.decodes_u32_nat _ hfits _)
    (by rw [leBytes_length]) ?_
  rw [hpe]
  refine Reader.decodes_seek_bind rfl ?_
  refine Reader.decodes_take_bind rfl ?_
  refine Decodes.ofExcept_bind (a := ()) (if_neg fun hne => hne rfl) ?_
  refine Reader.decodes_u16_bind ?_
  refine Reader.decodes_bind_pos (Reader.decodes_u16_nat _ hsections _)
    (by rw [leBytes_length]) ?_
  refine Reader.decodes_u32_bind ?_
  refine Reader.decodes_u32_bind ?_
  refine Reader.decodes_u32_bind ?_
  refine Reader.decodes_bind_pos (Reader.decodes_u16_nat _ h.sizeOfOptionalHeader_lt _)
    (by rw [leBytes_length]) ?_
  refine Decodes.bind_nil (Q := fun r => r.pos = h.optionalStart)
    (Reader.decodes_u16 _ h.characteristics tl) ?_ ?_
  · intro r hpos hrest
    rw [Reader.pos_advance r hpos hrest, leBytes_length, optionalStart, peOffset]
  · refine Decodes.get_bind fun r hpos _ => ?_
    rw [Reader.position, hpos]
    exact Decodes.pure _ _ tl

/-- The part of the optional header that is read. -/
def optional : PeImage.OptionalHeader where
  isPe32Plus := h.isPe32Plus
  entryPointRva := h.entryPointRva
  imageBase := h.imageBase
  sectionAlignment := h.sectionAlignment
  fileAlignment := h.fileAlignment
  sizeOfImage := h.sizeOfImage
  sizeOfHeaders := h.sizeOfHeaders
  subsystem := h.subsystem
  dllCharacteristics := h.dllCharacteristics
  dataDirectories := h.directories

/-- `ImageBase` is read in the width of the format. -/
theorem decodes_imageBase (n : Nat) (tl : List UInt8) :
    Decodes (fun r => r.pos = n + 20) (PeImage.readImageBase h.isPe32Plus n)
      (h.bases ++ h.imageBaseBytes) h.imageBase tl := by
  have hbases := h.bases_length
  have hfits := h.imageBase_fits
  rw [imageBaseBytes, PeImage.readImageBase]
  rcases Bool.eq_false_or_eq_true h.isPe32Plus with hplus | hplus
  · rw [hplus] at hbases ⊢
    refine Reader.decodes_seek_bind (by rw [hbases]; rfl) ?_
    exact Reader.decodes_u64 _ h.imageBase tl
  · rw [hplus] at hbases ⊢
    refine Reader.decodes_seek_bind (by rw [hbases]; rfl) ?_
    have hlow := hfits hplus
    have hnarrow : h.imageBase.toUInt32.toNat = h.imageBase.toNat := by
      rw [UInt64.toNat_toUInt32, Nat.mod_eq_of_lt hlow]
    have hwide : h.imageBase.toUInt32.toUInt64 = h.imageBase := by
      apply UInt64.toNat_inj.mp
      rw [UInt32.toNat_toUInt64, hnarrow]
    have hread := (Reader.decodes_u32 (fun r => r.pos = n + 28) h.imageBase.toUInt32 tl).map
      UInt32.toUInt64
    rw [hwide, hnarrow] at hread
    exact hread

theorem imageBase_length : (h.bases ++ h.imageBaseBytes).length = 12 := by
  rw [List.length_append, h.bases_length, imageBaseBytes, leBytes_length]
  split <;> rfl

/-- All the directories are read. -/
theorem dirCount_eq {r : Reader} {tl : List UInt8}
    (hrest : r.rest = h.directories.flatMap DataDirectory.bytes ++ tl) :
    min (min (UInt32.ofNat h.directories.length).toNat 16) (r.remaining / 8) =
      h.directories.length := by
  have hmax := h.directories_length
  have hcount : (UInt32.ofNat h.directories.length).toNat = h.directories.length :=
    UInt32.toNat_ofNat_of_lt' (Nat.lt_of_le_of_lt hmax (by decide))
  have hlen := length_flatMap_const fun d (_ : d ∈ h.directories) => d.bytes_length
  rw [hcount, Reader.remaining_of_rest hrest, hlen]
  omega

theorem isPlus_magic (n : Nat) :
    PeImage.isPlus (UInt16.ofNat (if h.isPe32Plus then 0x020B else 0x010B)) n =
      .ok h.isPe32Plus := by
  cases h.isPe32Plus <;> rfl

theorem decodes_optional (tl : List UInt8) :
    Decodes (fun r => r.pos = h.optionalStart) (PeImage.readOptionalHeader h.optionalStart)
      h.optionalBytes h.optional tl := by
  have hmagic : (if h.isPe32Plus then 0x020B else 0x010B) < 2 ^ 16 := by
    split <;> decide
  have hreserves : h.optionalStart + 20 + 12 + 4 + 4 + 16 + 4 + 4 + 4 + 2 + 2 + h.reserves.length =
      if h.isPe32Plus then h.optionalStart + 108 else h.optionalStart + 92 := by
    rw [h.reserves_length]
    split <;> rfl
  have hcount : h.directories.length < 2 ^ 32 :=
    Nat.lt_of_le_of_lt h.directories_length (by decide)
  rw [optionalBytes, ← List.append_assoc h.bases]
  refine Reader.decodes_bind_pos (Reader.decodes_u16_nat _ hmagic _) (by rw [leBytes_length]) ?_
  refine Decodes.ofExcept_bind (h.isPlus_magic _) ?_
  refine Reader.decodes_seek_bind (by rw [h.linker_length]) ?_
  refine Reader.decodes_u32_bind ?_
  refine Reader.decodes_bind_pos (h.decodes_imageBase _ _) (by rw [h.imageBase_length]) ?_
  refine Reader.decodes_u32_bind ?_
  refine Reader.decodes_u32_bind ?_
  refine Reader.decodes_seek_bind (by rw [h.versions_length]) ?_
  refine Reader.decodes_u32_bind ?_
  refine Reader.decodes_u32_bind ?_
  refine Reader.decodes_seek_bind (by rw [h.checksum_length]) ?_
  refine Reader.decodes_u16_bind ?_
  refine Reader.decodes_u16_bind ?_
  refine Reader.decodes_seek_bind hreserves ?_
  refine Reader.decodes_bind_pos (Reader.decodes_u32_nat _ hcount _) (by rw [leBytes_length]) ?_
  refine Decodes.get_bind fun r _ hrest => ?_
  simp only [h.dirCount_eq hrest]
  refine Decodes.weaken (Q := fun _ => True) ?_ fun _ _ => trivial
  have hdirectories : Decodes (fun _ => True)
      (Wire.repeatM PeImage.readDirectory h.directories.length)
      (h.directories.flatMap DataDirectory.bytes) h.directories tl :=
    Decodes.repeatM (fun _ _ _ => trivial) fun d _ tl' => PeImage.decodes_directory _ d tl'
  exact hdirectories.map fun dirs => { h.optional with dataDirectories := dirs }

end ImageHeaders

/-! ## The section table -/

namespace SectionData

/-- A section header whose range lies in the file is read back without a diagnostic. -/
theorem decodes_header {s : SectionData} {start length : Nat} (strictness : Strictness)
    (hstart : start + s.lead.length < 2 ^ 32) (hdata : s.data.length < 2 ^ 32)
    (hfile : start + s.content.length ≤ length) (tl : List UInt8) :
    Decodes (fun _ => True) (PeImage.readSectionHeader strictness length)
      (s.headerBytes start) (s.header start, []) tl := by
  have hclamp (at' : Nat) : PeImage.clampRawData strictness length at'
      (UInt32.ofNat s.data.length) (UInt32.ofNat (start + s.lead.length)) =
        .ok (UInt32.ofNat s.data.length, []) := by
    rw [content, List.length_append] at hfile
    rw [PeImage.clampRawData, UInt32.toNat_ofNat_of_lt' hstart, UInt32.toNat_ofNat_of_lt' hdata,
      if_neg (by omega)]
  refine Decodes.get_bind fun r _ _ => ?_
  rw [headerBytes]
  have hname := Reader.decodes_take (fun _ => True) s.name
  rw [s.name_length] at hname
  refine Decodes.seq (hname _) ?_
  refine Decodes.seq (Reader.decodes_u32 _ _ _) ?_
  refine Decodes.seq (Reader.decodes_u32 _ _ _) ?_
  refine Decodes.seq (Reader.decodes_u32_nat _ hdata _) ?_
  refine Decodes.seq (Reader.decodes_u32_nat _ hstart _) ?_
  refine Decodes.seq (Reader.decodes_u32 _ _ _) ?_
  refine Decodes.seq (Reader.decodes_u32 _ _ _) ?_
  refine Decodes.seq (Reader.decodes_u16 _ _ _) ?_
  refine Decodes.seq (Reader.decodes_u16 _ _ _) ?_
  refine Decodes.bind_nil (Q := fun _ => True) (Reader.decodes_u32 _ s.characteristics tl)
    (fun _ _ _ => trivial) ?_
  exact Decodes.ofExcept_bind (hclamp _) (Decodes.pure _ _ tl)

end SectionData

namespace ImageFile

variable (f : ImageFile)

/-- The content of a section lies in the file. -/
theorem bytes_split {e : Nat × SectionData} (he : e ∈ f.entries) :
    ∃ pre post, f.bytes = pre ++ (e.2.content ++ post) ∧ e.1 = pre.length := by
  obtain ⟨pre, post, hsplit, hstart⟩ := startsFrom_split he
  refine ⟨f.headerBytes ++ pre, post ++ f.trailer, ?_, ?_⟩
  · rw [bytes, content, hsplit]
    simp only [List.append_assoc]
  · rw [hstart, List.length_append, f.headerBytes_length]

theorem content_inFile {e : Nat × SectionData} (he : e ∈ f.entries) :
    e.1 + e.2.content.length ≤ f.bytes.length := by
  obtain ⟨pre, post, hbytes, hstart⟩ := f.bytes_split he
  rw [hbytes, List.length_append, List.length_append, hstart]
  omega

/-- The section table is read after the rest of the optional header. -/
theorem decodes_sectionTable (strictness : Strictness) (tl : List UInt8) :
    Decodes (fun r => r.pos = f.headers.optionalStart + f.headers.optionalSize)
      (PeImage.readSectionTable strictness f.bytes.length f.headers.sectionsOffset
        (UInt16.ofNat f.sections.length))
      (f.headers.optionalTail ++ f.sectionTable) (f.sectionHeaders, []) tl := by
  have hcount : (UInt16.ofNat f.sections.length).toNat = f.sections.length :=
    UInt16.toNat_ofNat_of_lt' f.sections_fit
  refine Reader.decodes_seek_bind ?_ ?_
  · rw [ImageHeaders.sectionsOffset, ImageHeaders.sizeOfOptionalHeader]
    omega
  refine Decodes.get_bind fun r _ hrest => ?_
  have hroom : PeImage.sectionCount strictness (UInt16.ofNat f.sections.length).toNat
      r.remaining f.headers.sectionsOffset = .ok f.entries.length := by
    have hmin : min f.sections.length (r.remaining / 40) = f.sections.length := by
      rw [Reader.remaining_of_rest hrest, f.sectionTable_length]
      omega
    rw [PeImage.sectionCount, hcount, hmin, f.entries_length]
    exact if_neg fun h => h.2 rfl
  refine Decodes.ofExcept_bind hroom ?_
  refine Decodes.weaken (Q := fun _ => True) ?_ fun _ _ => trivial
  have htable := Decodes.repeatM_map (P := fun _ => True) (fun _ _ _ => trivial)
    (p := PeImage.readSectionHeader strictness f.bytes.length)
    (fun e : Nat × SectionData => (e.2.header e.1, [])) f.entries tl
    fun e he tl' => SectionData.decodes_header strictness (f.raw_fits e he).1
      (f.raw_fits e he).2 (f.content_inFile he) tl'
  have hmap := htable.map fun sections =>
    (sections.map Prod.fst, sections.flatMap (Prod.snd (α := Section)))
  rw [List.map_map, List.flatMap_map] at hmap
  have hnil : (f.entries.flatMap fun _ => ([] : List Diagnostic)) = [] :=
    List.flatMap_eq_nil_iff.mpr fun _ _ => rfl
  rw [hnil] at hmap
  exact hmap

/-- The headers are read part by part. -/
theorem decodes_image (strictness : Strictness) (tl : List UInt8) :
    Decodes (fun r => r.pos = 0) (PeImage.parseImage f.bytes strictness) f.headerBytes
      (f.image strictness) tl := by
  have hoffset : (f.headers.coff f.sections.length).optionalStart +
      (f.headers.coff f.sections.length).sizeOfOptionalHeader.toNat = f.headers.sectionsOffset := by
    show f.headers.optionalStart + (UInt16.ofNat f.headers.sizeOfOptionalHeader).toNat = _
    rw [UInt16.toNat_ofNat_of_lt' f.headers.sizeOfOptionalHeader_lt, ImageHeaders.sectionsOffset]
  have hcoff : 0 + (f.headers.dosBytes ++ f.headers.coffBytes f.sections.length).length =
      f.headers.optionalStart := by
    rw [List.length_append, ImageHeaders.dosBytes_length, ImageHeaders.coffBytes_length,
      Nat.zero_add, ImageHeaders.optionalStart]
  rw [headerBytes, ← List.append_assoc]
  refine Reader.decodes_bind_pos (f.headers.decodes_coff f.sections_fit _) hcoff ?_
  refine Reader.decodes_bind_pos (f.headers.decodes_optional _)
    (by rw [ImageHeaders.optionalBytes_length]) ?_
  rw [hoffset]
  exact (f.decodes_sectionTable strictness tl).map fun table =>
    { f.image strictness with sections := table.1, diagnostics := table.2 }

/-- Decoding undoes encoding: both modes read the headers and the section table of an image
file back, without a diagnostic. -/
theorem parseWith_bytes (strictness : Strictness) :
    PeImage.parseWith f.bytes strictness = .ok (f.image strictness) := by
  have hrun := f.decodes_image strictness (f.content ++ f.trailer)
    (Reader.new f.bytes 0 peContext) rfl (Reader.rest_new _ _ _)
  rw [PeImage.parseWith, hrun]

end ImageFile

end Cildec
