import Cildec.Body.Strict
import Cildec.Metadata.Strict
import Cildec.Pe.Strict

/-!
# The two modes of the parsers

`strict_le_permissive`: strict mode only ever rejects more, for the four parsers that take a
strictness. `container_strict_iff`: when strict mode accepts an image or a metadata region
that permissive mode has read without a diagnostic.
-/

namespace Cildec

open Wire

/-- Whatever strict mode reads, permissive mode reads with an equal result: the same fields
and the same diagnostics, up to the strictness that is recorded. -/
theorem strict_le_permissive :
    (∀ bytes codeRva body, MethodBody.parseWith bytes codeRva .strict = .ok body →
      MethodBody.parseWith bytes codeRva .permissive = .ok body) ∧
    (∀ data base uncompressed ds result,
      Tables.parse data base uncompressed .strict ds = .ok result →
        Tables.parse data base uncompressed .permissive ds = .ok result) ∧
    (∀ bytes base m, Metadata.parseAt bytes base .strict = .ok m →
      Metadata.parseAt bytes base .permissive = .ok { m with strictness := .permissive }) ∧
    (∀ bytes image, PeImage.parseWith bytes .strict = .ok image →
      PeImage.parseWith bytes .permissive = .ok { image with strictness := .permissive }) := by
  refine ⟨?_, ?_, ?_, ?_⟩
  · intro bytes codeRva body h
    exact MethodBody.parseWith_up h
  · intro data base uncompressed ds result h
    exact (Tables.parse_narrows data base uncompressed ds).up result h
  · intro bytes base m h
    exact Metadata.parseAt_up h
  · intro bytes image h
    exact PeImage.parseWith_up h

/-- Strict mode accepts what permissive mode has read without a diagnostic exactly when the
section table lies in the file, and exactly when the stream directory conforms. -/
theorem container_strict_iff (bytes : List UInt8) :
    (∀ image, PeImage.parseWith bytes .permissive = .ok image → image.diagnostics = [] →
      ((∃ image', PeImage.parseWith bytes .strict = .ok image') ↔
        PeImage.sectionsOffset bytes + 40 * PeImage.numberOfSections bytes ≤ bytes.length)) ∧
    (∀ base m, Metadata.parseAt bytes base .permissive = .ok m → m.diagnostics = [] →
      ((∃ m', Metadata.parseAt bytes base .strict = .ok m') ↔
        Metadata.DirectoryConforms bytes)) := by
  refine ⟨?_, ?_⟩
  · intro image hok hquiet
    exact PeImage.strict_accepts_iff hok hquiet
  · intro base m hok hquiet
    exact Metadata.parseAt_strict_iff hok hquiet

/-- A PE32 image whose headers end the file and whose COFF header counts `sections` sections.
The `PE` signature stands in the MS-DOS header. -/
def headersOnly (sections : UInt8) : List UInt8 :=
  [0x4D, 0x5A, 0, 0, 0x50, 0x45, 0, 0, 0x4C, 0x01, sections, 0x00] ++ List.replicate 12 0 ++
    [0x60, 0, 0, 0, 0x0B, 0x01] ++ List.replicate 30 0 ++ [0x04, 0, 0, 0] ++ List.replicate 60 0

/-- A metadata root that counts `streams` streams. -/
def rootOf (streams : UInt8) : List UInt8 :=
  [0x42, 0x53, 0x4A, 0x42, 1, 0, 1, 0, 0, 0, 0, 0, 4, 0, 0, 0, 0x76, 0, 0, 0, 0, 0, streams, 0]

/-- A region with one stream, a table stream without tables. -/
def tablesOnly : List UInt8 :=
  rootOf 1 ++ [36, 0, 0, 0, 24, 0, 0, 0, 0x23, 0x7E, 0, 0] ++ List.replicate 24 0

/-- An input that strict mode reads, for each of the parsers. -/
theorem strict_le_permissive_minimal :
    (∃ body, MethodBody.parseWith [0x06, 0x2A] 0 .permissive = .ok body) ∧
    (∃ result, Tables.parse (List.replicate 24 0) 0 false .permissive [] = .ok result) ∧
    (∃ m, Metadata.parseAt tablesOnly 0 .permissive = .ok m) ∧
    (∃ image, PeImage.parseWith (headersOnly 0) .permissive = .ok image) := by
  have hbody : (MethodBody.parseWith [0x06, 0x2A] 0 .strict).isOk := by decide +kernel
  have htables : (Tables.parse (List.replicate 24 0) 0 false .strict []).isOk := by
    decide +kernel
  have hregion : (Metadata.parseAt tablesOnly 0 .strict).isOk := by decide +kernel
  have himage : (PeImage.parseWith (headersOnly 0) .strict).isOk := by decide +kernel
  obtain ⟨body, hbody⟩ := exists_ok_of_isOk hbody
  obtain ⟨result, htables⟩ := exists_ok_of_isOk htables
  obtain ⟨m, hregion⟩ := exists_ok_of_isOk hregion
  obtain ⟨image, himage⟩ := exists_ok_of_isOk himage
  exact ⟨⟨_, strict_le_permissive.1 _ _ _ hbody⟩,
    ⟨_, strict_le_permissive.2.1 _ _ _ _ _ htables⟩,
    ⟨_, strict_le_permissive.2.2.1 _ _ _ hregion⟩,
    ⟨_, strict_le_permissive.2.2.2 _ _ himage⟩⟩

theorem headersOnly_permissive :
    ∃ image, PeImage.parseWith (headersOnly 1) .permissive = .ok image ∧
      image.diagnostics = [] := by
  have hok : (PeImage.parseWith (headersOnly 1) .permissive).toOption.map
      PeImage.diagnostics = some [] := by decide +kernel
  obtain ⟨image, himage, hquiet⟩ := Option.map_eq_some_iff.mp hok
  exact ⟨image, ok_of_toOption himage, hquiet⟩

theorem rootOf_permissive :
    ∃ m, Metadata.parseAt (rootOf 0) 0 .permissive = .ok m ∧ m.diagnostics = [] := by
  have hok : (Metadata.parseAt (rootOf 0) 0 .permissive).toOption.map
      Metadata.diagnostics = some [] := by decide +kernel
  obtain ⟨m, hm, hquiet⟩ := Option.map_eq_some_iff.mp hok
  exact ⟨m, ok_of_toOption hm, hquiet⟩

/-- Neither parser reports what it leaves out: a section table that is cut off, and a table
stream that is missing. -/
theorem container_tolerates_silently :
    (¬ ∀ bytes image, PeImage.parseWith bytes .permissive = .ok image → image.diagnostics = [] →
      ∃ image', PeImage.parseWith bytes .strict = .ok image') ∧
    (¬ ∀ bytes base m, Metadata.parseAt bytes base .permissive = .ok m → m.diagnostics = [] →
      ∃ m', Metadata.parseAt bytes base .strict = .ok m') := by
  refine ⟨?_, ?_⟩
  · intro h
    obtain ⟨image, himage, hquiet⟩ := headersOnly_permissive
    obtain ⟨image', hstrict⟩ := h _ _ himage hquiet
    have hfail : (PeImage.parseWith (headersOnly 1) .strict).isOk = false := by decide +kernel
    rw [hstrict] at hfail
    cases hfail
  · intro h
    obtain ⟨m, hm, hquiet⟩ := rootOf_permissive
    obtain ⟨m', hstrict⟩ := h _ _ _ hm hquiet
    have hfail : (Metadata.parseAt (rootOf 0) 0 .strict).isOk = false := by decide +kernel
    rw [hstrict] at hfail
    cases hfail

theorem container_strict_iff_minimal :
    ((∃ image', PeImage.parseWith (headersOnly 1) .strict = .ok image') ↔
      PeImage.sectionsOffset (headersOnly 1) + 40 * PeImage.numberOfSections (headersOnly 1) ≤
        (headersOnly 1).length) ∧
    ((∃ m', Metadata.parseAt (rootOf 0) 0 .strict = .ok m') ↔
      Metadata.DirectoryConforms (rootOf 0)) := by
  obtain ⟨image, himage, hquiet⟩ := headersOnly_permissive
  obtain ⟨m, hm, hquiet'⟩ := rootOf_permissive
  exact ⟨(container_strict_iff _).1 _ himage hquiet, (container_strict_iff _).2 _ _ hm hquiet'⟩

end Cildec
