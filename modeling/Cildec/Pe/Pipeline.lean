import Cildec.Pe.Managed

/-!
# From the file to the metadata region (`src/pe.rs`)

What the steps from an accepted image to its CLI header, its metadata region and the bodies of
its methods read of the file.

* `cliHeader_ok_iff`: the header is the 72 bytes at its place in the file, field by field;
* `metadata_ok_iff`, `metadata_exact`: the region is parsed from the bytes at its place in the
  file;
* `strict_pipeline`: on every step strict mode only rejects more, and what it rejects of the
  header is in `cliHeaderDiagnostics`.
-/

namespace Cildec

open Wire

namespace PeImage

variable {bytes : List UInt8} {strictness : Strictness} {image : PeImage}

theorem parseWith_strictness (h : parseWith bytes strictness = .ok image) :
    image.strictness = strictness := by
  obtain ⟨_, _, _, _, _, _, _, _, _, rfl⟩ := parseWith_ok_iff.mp h
  rfl

/-! ## The CLI header -/

/-- The header of an accepted image and the 72 bytes at its place in the file determine each
other. Strict mode accepts the headers that say they have 72 bytes. -/
theorem cliHeader_ok_iff (h : parseWith bytes strictness = .ok image) (header : CliHeader) :
    image.cliHeader = .ok header ↔
      (image.dataDirectory cliHeaderDirectory).isEmpty = false ∧
      (∃ o n, image.rvaToOffset (image.dataDirectory cliHeaderDirectory).rva = some o ∧
        image.rvaAvailable (image.dataDirectory cliHeaderDirectory).rva = some n ∧ 72 ≤ n ∧
        (bytes.drop o).take 72 = header.bytes) ∧
      header.Expressible ∧ (strictness.isStrict = true → header.size = 72) := by
  obtain ⟨hbytes, hsections⟩ := section_inFile h
  rw [← hbytes] at hsections
  rw [cliHeader, parseWith_strictness h]
  cases hempty : (image.dataDirectory cliHeaderDirectory).isEmpty with
  | true =>
      simp only [if_true]
      constructor
      · intro hok
        cases hok
      · rintro ⟨hnot, _⟩
        cases hnot
  | false =>
      simp only [Bool.false_eq_true, if_false, true_and]
      rw [ok_bind_iff]
      constructor
      · rintro ⟨slice, hslice, hparse⟩
        obtain ⟨o, n, ho, hn, hle, rfl⟩ := (rvaSlice_ok_iff hsections _ _ _).mp hslice
        obtain ⟨htake, hexp, hsize⟩ := CliHeader.parse_ok_iff.mp hparse
        rw [hn, Option.getD_some, hbytes, List.take_take] at htake
        have hlen := congrArg List.length htake
        rw [header.bytes_length, List.length_take] at hlen
        have hroom : 72 ≤ n := by omega
        rw [show min 72 (min 72 n) = 72 by omega] at htake
        exact ⟨⟨o, n, ho, hn, hroom, htake⟩, hexp, hsize⟩
      · rintro ⟨⟨o, n, ho, hn, hroom, htake⟩, hexp, hsize⟩
        have hmin : min 72 ((image.rvaAvailable
            (image.dataDirectory cliHeaderDirectory).rva).getD 0) = 72 := by
          rw [hn, Option.getD_some]
          omega
        refine ⟨header.bytes, ?_, ?_⟩
        · rw [hmin]
          exact (rvaSlice_ok_iff hsections _ _ _).mpr ⟨o, n, ho, hn, hroom, by rw [hbytes, htake]⟩
        · refine CliHeader.parse_ok_iff.mpr ⟨?_, hexp, hsize⟩
          rw [← header.bytes_length, List.take_length]

/-! ## The metadata region -/

/-- The region of an accepted image is parsed from the bytes that are mapped at the RVA in the
CLI header, as many as the header says and the section has. -/
theorem metadata_ok_iff (h : parseWith bytes strictness = .ok image) (m : Metadata) :
    image.metadata = .ok m ↔
      ∃ header o n, image.cliHeader = .ok header ∧ header.metadata.isEmpty = false ∧
        image.rvaToOffset header.metadata.rva = some o ∧
        image.rvaAvailable header.metadata.rva = some n ∧
        Metadata.parseAt ((bytes.drop o).take (min header.metadata.size.toNat n)) o strictness =
          .ok m := by
  obtain ⟨hbytes, hsections⟩ := section_inFile h
  rw [← hbytes] at hsections ⊢
  rw [metadata, ok_bind_iff, parseWith_strictness h]
  constructor
  · rintro ⟨header, hheader, hrest⟩
    cases hempty : header.metadata.isEmpty with
    | true =>
        rw [hempty, if_pos rfl] at hrest
        cases hrest
    | false =>
        rw [hempty, if_neg Bool.false_ne_true] at hrest
        cases havailable : image.rvaAvailable header.metadata.rva with
        | none =>
            rw [havailable] at hrest
            cases hrest
        | some n =>
            rw [havailable] at hrest
            obtain ⟨slice, hslice, hparse⟩ := ok_bind_iff.mp hrest
            obtain ⟨o, n', ho, hn', _, rfl⟩ := (rvaSlice_ok_iff hsections _ _ _).mp hslice
            rw [ho, Option.getD_some] at hparse
            exact ⟨header, o, n, hheader, hempty, ho, havailable, hparse⟩
  · rintro ⟨header, o, n, hheader, hempty, ho, hn, hparse⟩
    refine ⟨header, hheader, ?_⟩
    have hslice : image.rvaSlice header.metadata.rva (min header.metadata.size.toNat n) =
        .ok ((image.bytes.drop o).take (min header.metadata.size.toNat n)) :=
      (rvaSlice_ok_iff hsections _ _ _).mpr ⟨o, n, ho, hn, Nat.min_le_right _ _, rfl⟩
    rw [hempty, if_neg Bool.false_ne_true, hn]
    simp only [hslice, ho, Option.getD_some]
    exact hparse

/-- The metadata of an accepted image, read off the file: the CLI header is the 72 bytes that
are mapped at the data directory, and the region it names is parsed from the bytes that are
mapped at its RVA. -/
theorem metadata_exact (h : parseWith bytes strictness = .ok image) (m : Metadata) :
    image.metadata = .ok m ↔
      (image.dataDirectory cliHeaderDirectory).isEmpty = false ∧
      ∃ header o n start available,
        image.rvaToOffset (image.dataDirectory cliHeaderDirectory).rva = some o ∧
        image.rvaAvailable (image.dataDirectory cliHeaderDirectory).rva = some n ∧ 72 ≤ n ∧
        (bytes.drop o).take 72 = CliHeader.bytes header ∧ header.Expressible ∧
        (strictness.isStrict = true → header.size = 72) ∧ header.metadata.isEmpty = false ∧
        image.rvaToOffset header.metadata.rva = some start ∧
        image.rvaAvailable header.metadata.rva = some available ∧
        Metadata.parseAt ((bytes.drop start).take (min header.metadata.size.toNat available))
          start strictness = .ok m := by
  rw [metadata_ok_iff h]
  constructor
  · rintro ⟨header, start, available, hheader, hnamed, hstart, havailable, hparse⟩
    obtain ⟨hdirectory, ⟨o, n, ho, hn, hroom, htake⟩, hexp, hsize⟩ :=
      (cliHeader_ok_iff h header).mp hheader
    exact ⟨hdirectory, header, o, n, start, available, ho, hn, hroom, htake, hexp, hsize, hnamed,
      hstart, havailable, hparse⟩
  · rintro ⟨hdirectory, header, o, n, start, available, ho, hn, hroom, htake, hexp, hsize, hnamed,
      hstart, havailable, hparse⟩
    have hheader := (cliHeader_ok_iff h header).mpr
      ⟨hdirectory, ⟨o, n, ho, hn, hroom, htake⟩, hexp, hsize⟩
    exact ⟨header, start, available, hheader, hnamed, hstart, havailable, hparse⟩

/-- The region of the library of one method is parsed where its RVA is mapped. -/
theorem metadata_exact_oneMethod :
    ∃ m header start available, (ManagedFile.oneMethodFile.image .permissive).metadata = .ok m ∧
      (ManagedFile.oneMethodFile.image .permissive).rvaToOffset (CliHeader.metadata header).rva =
        some start ∧
      Metadata.parseAt ((ManagedFile.oneMethodFile.bytes.drop start).take
        (min header.metadata.size.toNat available)) start .permissive = .ok m := by
  have hok : (ManagedFile.oneMethodFile.image .permissive).metadata.toOption.map
      Metadata.diagnostics = some [] := by
    decide +kernel
  obtain ⟨m, hm, _⟩ := Option.map_eq_some_iff.mp hok
  obtain ⟨_, header, _, _, start, available, _, _, _, _, _, _, _, hstart, _, hparse⟩ :=
    (metadata_exact (ManagedFile.oneMethodFile.parseWith_bytes .permissive) m).mp
      (ok_of_toOption hm)
  exact ⟨m, header, start, available, ok_of_toOption hm, hstart, hparse⟩

/-! ## The two modes -/

/-- The image as permissive mode reads it. -/
def permissive (image : PeImage) : PeImage := { image with strictness := .permissive }

/-- `cliHeaderDiagnostics` reports the size of the header. -/
theorem cliHeaderSize_reported_iff (image : PeImage) :
    (∃ d ∈ image.cliHeaderDiagnostics, d.code = .cliHeaderSize) ↔
      ∃ header, image.cliHeader = .ok header ∧ header.size ≠ 72 := by
  rw [cliHeaderDiagnostics]
  cases hheader : image.cliHeader with
  | error e =>
      constructor
      · rintro ⟨d, hd, _⟩
        cases hd
      · rintro ⟨header, hok, _⟩
        cases hok
  | ok header =>
      constructor
      · rintro ⟨d, hd, hcode⟩
        refine ⟨header, rfl, ?_⟩
        intro hsize
        simp only [hsize, ne_eq, not_true, if_false, List.nil_append] at hd
        -- only the bitness of the flags is left to report
        split at hd
        · rw [List.mem_singleton.mp hd] at hcode
          cases hcode
        · cases hd
      · rintro ⟨header', hok, hsize⟩
        cases hok
        refine ⟨.new .cliHeaderSize image.cliBase header.size.toNat, ?_, rfl⟩
        refine List.mem_append_left _ ?_
        rw [if_pos hsize]
        exact List.mem_cons_self

/-- Strict mode reads the headers that permissive mode reads without reporting their size. -/
theorem cliHeader_strict_iff (h : parseWith bytes .strict = .ok image) (header : CliHeader) :
    image.cliHeader = .ok header ↔ image.permissive.cliHeader = .ok header ∧
      ¬ ∃ d ∈ image.permissive.cliHeaderDiagnostics, d.code = .cliHeaderSize := by
  have hup : parseWith bytes .permissive = .ok image.permissive := parseWith_up h
  rw [cliHeaderSize_reported_iff]
  constructor
  · intro hok
    obtain ⟨hnamed, hplace, hexp, hsize⟩ := (cliHeader_ok_iff h header).mp hok
    have hpermissive : image.permissive.cliHeader = .ok header :=
      (cliHeader_ok_iff hup header).mpr ⟨hnamed, hplace, hexp, nofun⟩
    refine ⟨hpermissive, ?_⟩
    rintro ⟨header', hok', hne⟩
    rw [hpermissive] at hok'
    cases hok'
    exact hne (hsize rfl)
  · rintro ⟨hok, hquiet⟩
    obtain ⟨hnamed, hplace, hexp, _⟩ := (cliHeader_ok_iff hup header).mp hok
    refine (cliHeader_ok_iff h header).mpr ⟨hnamed, hplace, hexp, fun _ => ?_⟩
    by_contra hne
    exact hquiet ⟨header, hok, hne⟩

/-- A region that strict mode reads is read alike in permissive mode. -/
theorem metadata_up (h : parseWith bytes .strict = .ok image) {m : Metadata}
    (hm : image.metadata = .ok m) :
    image.permissive.metadata = .ok { m with strictness := .permissive } := by
  obtain ⟨header, o, n, hheader, hnamed, ho, hn, hparse⟩ := (metadata_ok_iff h m).mp hm
  exact (metadata_ok_iff (parseWith_up h) _).mpr ⟨header, o, n,
    ((cliHeader_strict_iff h header).mp hheader).1, hnamed, ho, hn, Metadata.parseAt_up hparse⟩

theorem fromImage_up (h : parseWith bytes .strict = .ok image) {method : MethodDefRow}
    {body : Option MethodBody} (hbody : MethodBody.fromImage image method = .ok body) :
    MethodBody.fromImage image.permissive method = .ok body := by
  unfold MethodBody.fromImage at hbody ⊢
  cases hnone : method.hasNoBody with
  | true =>
      rw [hnone, if_pos rfl] at hbody
      exact hbody
  | false =>
      rw [hnone, if_neg Bool.false_ne_true] at hbody
      rw [if_neg Bool.false_ne_true]
      obtain ⟨slice, hslice, hbody⟩ := ok_bind_iff.mp hbody
      obtain ⟨b, hparse, hpure⟩ := ok_bind_iff.mp hbody
      rw [parseWith_strictness h] at hparse
      exact ok_bind_iff.mpr ⟨slice, hslice,
        ok_bind_iff.mpr ⟨b, MethodBody.parseWith_up hparse, hpure⟩⟩

/-- On the whole way from the file to the tables and the bodies strict mode only rejects more.
What it reads of the CLI header is what permissive mode reads without reporting its size, and
the region, the entry point and the bodies that it reads are read alike in permissive mode. -/
theorem strict_pipeline (h : parseWith bytes .strict = .ok image) :
    parseWith bytes .permissive = .ok image.permissive ∧
    (∀ header, image.cliHeader = .ok header ↔ image.permissive.cliHeader = .ok header ∧
      ¬ ∃ d ∈ image.permissive.cliHeaderDiagnostics, d.code = .cliHeaderSize) ∧
    (∀ m, image.metadata = .ok m →
      image.permissive.metadata = .ok { m with strictness := .permissive }) ∧
    (∀ t, image.entryPointToken = some t → image.permissive.entryPointToken = some t) ∧
    (∀ method body, MethodBody.fromImage image method = .ok body →
      MethodBody.fromImage image.permissive method = .ok body) := by
  refine ⟨parseWith_up h, cliHeader_strict_iff h, fun _ => metadata_up h, ?_,
    fun _ _ => fromImage_up h⟩
  intro t ht
  rw [entryPointToken] at ht ⊢
  cases hheader : image.cliHeader with
  | error e =>
      rw [hheader] at ht
      cases ht
  | ok header =>
      rw [hheader] at ht
      rw [((cliHeader_strict_iff h header).mp hheader).1]
      exact ht

/-- The CLI header of a library of one method, in both modes. -/
theorem strict_pipeline_oneMethod :
    (ManagedFile.oneMethodFile.image .strict).permissive.cliHeader =
        .ok ManagedFile.oneMethodCli ∧
      (ManagedFile.oneMethodFile.image .strict).permissive.entryPointToken =
        some ⟨0x06000001⟩ := by
  have hstrict : (ManagedFile.oneMethodFile.image .strict).cliHeader =
      .ok ManagedFile.oneMethodCli := ManagedFile.oneMethod.cliHeader_eq fun _ => rfl
  have hpipeline := strict_pipeline (ManagedFile.oneMethodFile.parseWith_bytes .strict)
  refine ⟨((hpipeline.2.1 _).mp hstrict).1, hpipeline.2.2.2.1 _ ?_⟩
  rw [entryPointToken, hstrict]
  rfl

/-- Where the strict pipeline reaches the metadata that the permissive one has read without a
report: the section table lies in the file and the stream directory conforms. -/
theorem pipeline_strict_iff {m : Metadata} (h : parseWith bytes .permissive = .ok image)
    (hm : image.metadata = .ok m) (hquiet : image.diagnostics = [])
    (hheader : ¬ ∃ d ∈ image.cliHeaderDiagnostics, d.code = .cliHeaderSize)
    (hregion : m.diagnostics = []) :
    (∃ strict m', parseWith bytes .strict = .ok strict ∧ strict.metadata = .ok m') ↔
      sectionsOffset bytes + 40 * numberOfSections bytes ≤ bytes.length ∧
        Metadata.DirectoryConforms m.bytes := by
  obtain ⟨header, o, n, hok, hnamed, ho, hn, hparse⟩ := (metadata_ok_iff h m).mp hm
  have hslice : m.bytes = (bytes.drop o).take (min header.metadata.size.toNat n) := by
    obtain ⟨_, _, _, _, _, _, _, _, _, _, rfl⟩ := Metadata.parseAt_ok_iff.mp hparse
    rfl
  have hregion_iff := Metadata.parseAt_strict_iff hparse hregion
  rw [← hslice] at hregion_iff
  rw [← strict_accepts_iff h hquiet, ← hregion_iff]
  constructor
  · rintro ⟨strict, m', hstrict, hm'⟩
    have hup := parseWith_up hstrict
    rw [h] at hup
    cases hup
    obtain ⟨header', o', n', hok', _, ho', hn', hparse'⟩ := (metadata_ok_iff hstrict m').mp hm'
    have hheader' := ((cliHeader_strict_iff hstrict header').mp hok').1
    have hsame : header = header' := by
      have heq := hok.symm.trans hheader'
      cases heq
      rfl
    subst hsame
    have hoffset : o = o' := Option.some.inj (ho.symm.trans ho')
    have havailable : n = n' := Option.some.inj (hn.symm.trans hn')
    subst hoffset havailable
    exact ⟨⟨strict, hstrict⟩, m', hslice ▸ hparse'⟩
  · rintro ⟨⟨strict, hstrict⟩, m', hparse'⟩
    have hup := parseWith_up hstrict
    rw [h] at hup
    cases hup
    refine ⟨strict, m', hstrict, (metadata_ok_iff hstrict m').mpr ⟨header, o, n, ?_, hnamed, ho,
      hn, hslice ▸ hparse'⟩⟩
    exact (cliHeader_strict_iff hstrict header).mpr ⟨hok, hheader⟩

/-- The library of one method is read in both modes. -/
theorem pipeline_strict_iff_oneMethod :
    ∃ m, (ManagedFile.oneMethodFile.image .permissive).metadata = .ok m ∧
      ((∃ strict m', parseWith ManagedFile.oneMethodFile.bytes .strict = .ok strict ∧
          strict.metadata = .ok m') ↔
        sectionsOffset ManagedFile.oneMethodFile.bytes +
            40 * numberOfSections ManagedFile.oneMethodFile.bytes ≤
              ManagedFile.oneMethodFile.bytes.length ∧
          Metadata.DirectoryConforms m.bytes) := by
  have hok : (ManagedFile.oneMethodFile.image .permissive).metadata.toOption.map
      Metadata.diagnostics = some [] := by
    decide +kernel
  obtain ⟨m, hm, hquiet⟩ := Option.map_eq_some_iff.mp hok
  have hm := ok_of_toOption hm
  refine ⟨m, hm, pipeline_strict_iff (ManagedFile.oneMethodFile.parseWith_bytes .permissive) hm
    rfl ?_ hquiet⟩
  rw [cliHeaderSize_reported_iff]
  rintro ⟨header, hheader, hne⟩
  rw [show (ManagedFile.oneMethodFile.image .permissive).cliHeader =
    .ok ManagedFile.oneMethodCli from ManagedFile.oneMethod.cliHeader_eq nofun] at hheader
  cases hheader
  exact hne rfl

end PeImage

end Cildec
