import Cildec.Body.Strict

/-!
# When the code of a body can be read (`src/body.rs`)

The parser reads the code first and the data sections after it, but an error among the
sections is the error of the whole body. `Walkable` says that the chain of sections can be
read to its end: `MethodBody.parse_code_iff` is the condition under which a readable code
range is returned.
-/

namespace Cildec

open Wire

/-- The chain of sections from `n` on can be read in permissive mode: every section header
lies in the bytes and every clause can be classified, up to a section that announces no
other one or that ends with the bytes. -/
inductive Walkable (bytes : List UInt8) : Nat → Prop where
  | last {n : Nat} {h : SectionHeader} (header : sectionHeader? bytes n = some h)
      (legal : h.LegalClauses bytes)
      (ends : h.more = false ∨ h.next bytes.length = bytes.length) : Walkable bytes n
  | later {n : Nat} {h : SectionHeader} (header : sectionHeader? bytes n = some h)
      (legal : h.LegalClauses bytes) (more : h.more = true)
      (rest : Walkable bytes (h.next bytes.length)) : Walkable bytes n

/-- The walk from its first section. -/
theorem walkable_iff {bytes : List UInt8} {n : Nat} {h : SectionHeader}
    (hheader : sectionHeader? bytes n = some h) (hlegal : h.LegalClauses bytes) :
    Walkable bytes n ↔
      h.more = false ∨ h.next bytes.length = bytes.length ∨ Walkable bytes (h.next bytes.length) := by
  constructor
  · intro hwalk
    cases hwalk with
    | last header legal ends =>
        rw [hheader] at header
        cases header
        exact ends.imp_right .inl
    | later header legal more rest =>
        rw [hheader] at header
        cases header
        exact .inr (.inr rest)
  · intro hcase
    cases hmore : h.more with
    | false => exact .last hheader hlegal (.inl hmore)
    | true =>
        rcases hcase with hlast | hends | hrest
        · rw [hmore] at hlast
          cases hlast
        · exact .last hheader hlegal (.inr hends)
        · exact .later hheader hlegal hmore hrest

/-- A walk never starts where the bytes end. -/
theorem not_walkable_end (bytes : List UInt8) : ¬ Walkable bytes bytes.length := by
  have hnone (h : SectionHeader) : sectionHeader? bytes bytes.length ≠ some h := by
    intro hheader
    obtain ⟨hstart, hend⟩ := bodyStart_le hheader
    rw [SectionHeader.bodyStart] at hend
    omega
  intro hwalk
  cases hwalk with
  | last header _ _ => exact hnone _ header
  | later header _ _ _ => exact hnone _ header

/-- Which chains of sections permissive mode reads. -/
theorem parseSections_permissive_iff (sections : Sections) (r : Reader) :
    (∃ a t, (parseSections .permissive sections).run r = .ok a t) ↔ Walkable r.data r.pos := by
  induction sections, r using chain_induction (s := .permissive) with
  | step sections r ih =>
      by_cases hread : ∃ a r', (readSection .permissive).run r = .ok a r'
      · obtain ⟨⟨decoded, more⟩, r1, hsection⟩ := hread
        obtain ⟨h, hheader, rfl, hlegal, hdata, hpos, _⟩ := section_ok hsection
        have hempty : r1.isEmpty = true ↔ h.next r.data.length = r.data.length := by
          have hle := r1.pos_le
          rw [hdata, hpos] at hle
          rw [Reader.isEmpty, decide_eq_true_iff, hdata, hpos]
          omega
        rw [exists_parseSections_iff hsection, walkable_iff hheader hlegal]
        cases hmore : h.more with
        | false => simp
        | true =>
            rw [ih decoded r1 (hmore ▸ hsection), hdata, hpos, ← hempty]
            -- at the end of the bytes there is no section to walk
            have hends : r1.isEmpty = true → ¬ Walkable r.data (h.next r.data.length) := by
              intro he
              rw [hempty.mp he]
              exact not_walkable_end r.data
            cases he : r1.isEmpty with
            | true => simp [Strictness.isStrict]
            | false => simp
      · have hnot : ¬ Walkable r.data r.pos := by
          intro hwalk
          refine hread ((section_ok_iff r).mpr ?_)
          cases hwalk with
          | last header legal _ => exact ⟨_, header, legal⟩
          | later header legal _ _ => exact ⟨_, header, legal⟩
        refine iff_of_false ?_ hnot
        rintro ⟨a, t, hrun⟩
        obtain ⟨decoded, more, r1, hsection, _⟩ := parseSections_ok_iff.mp hrun
        exact hread ⟨_, _, hsection⟩

theorem readSections_permissive_iff (flags : FatFlags) (r : Reader) :
    (∃ a t, (readSections .permissive flags).run r = .ok a t) ↔
      (flags.moreSects = true → Walkable r.data r.pos) := by
  unfold readSections
  cases hmore : flags.moreSects with
  | false => exact iff_of_true ⟨_, _, rfl⟩ (fun h => by cases h)
  | true =>
      rw [if_pos rfl, parseSections_permissive_iff]
      simp

/-- The code of a tiny body is read when it lies in the bytes. -/
theorem parse_tiny {first : UInt8} (hfirst : first &&& 0x03 = 0x02) {tl : List UInt8}
    (hfit : 1 + (first >>> 2).toNat ≤ (first :: tl).length) (codeRva : UInt32) :
    ∃ body, MethodBody.parse (first :: tl) codeRva = .ok body ∧
      body.code = tl.take (first >>> 2).toNat := by
  have hrest : (Reader.new (first :: tl) 0 bodyContext).rest = first :: tl :=
    Reader.rest_new _ _ _
  have htake : (first >>> 2).toNat ≤
      ((Reader.new (first :: tl) 0 bodyContext).advance 1).remaining := by
    rw [Reader.advance_eq_moveTo, Reader.moveTo_remaining (Nat.succ_le_succ (Nat.zero_le _))]
    show _ ≤ (first :: tl).length - (0 + 1)
    omega
  obtain ⟨body, r, hrun, hcode⟩ : ∃ body r,
      (parseTiny codeRva).run (Reader.new (first :: tl) 0 bodyContext) = .ok body r ∧
        body.code = ((Reader.new (first :: tl) 0 bodyContext).advance 1).rest.take
          (first >>> 2).toNat := by
    rw [parseTiny, run_bind_of_ok (Reader.u8_run_cons hrest),
      run_bind_of_ok (Reader.take_run htake)]
    exact ⟨_, _, rfl, rfl⟩
  refine ⟨body, MethodBody.parseWith_ok_iff.mpr ⟨r, ?_⟩, ?_⟩
  · rw [parseBody_run, if_pos hfirst, hrun]
  · rw [hcode, Reader.advance_eq_moveTo, Reader.moveTo_rest (Nat.succ_le_succ (Nat.zero_le _))]
    rfl

/-- When the code range that a complete header declares is returned: no section is announced,
or the sections after the code can be walked. -/
theorem MethodBody.parse_code_iff {bytes : List UInt8} {start size : Nat}
    (hrange : codeRange? bytes = some (start, size)) (hfit : start + size ≤ bytes.length)
    (codeRva : UInt32) :
    (∃ body, MethodBody.parse bytes codeRva = .ok body ∧
        body.code = (bytes.drop start).take size) ↔
      (announcesSections bytes = true → Walkable bytes (start + size)) := by
  cases bytes with
  | nil => cases hrange
  | cons first tl =>
      rw [codeRange?] at hrange
      split at hrange
      · rename_i htiny
        cases hrange
        refine iff_of_true (parse_tiny htiny hfit codeRva) ?_
        intro hsections
        simp [announcesSections, htiny] at hsections
      · split at hrange
        · rename_i hfat
          obtain ⟨hfirst, hlen⟩ := hfat
          cases hrange
          have hannounces : announcesSections (first :: tl) =
              (fatHeader (first :: tl)).flags.moreSects := by
            rw [announcesSections, hfirst]
            rfl
          have hsections := readSections_permissive_iff (fatHeader (first :: tl)).flags
            ((Reader.new (first :: tl) 0 bodyContext).moveTo (fatHeader (first :: tl)).codeEnd)
          rw [Reader.moveTo_pos hfit] at hsections
          rw [hannounces]
          refine Iff.trans ?_ hsections
          constructor
          · rintro ⟨body, hbody, _⟩
            obtain ⟨r, hrun⟩ := (parseWith_fat_ok_iff hfirst).mp hbody
            obtain ⟨_, _, _, sections, _, _, hrun', _⟩ := parseFat_ok_iff.mp hrun
            exact ⟨sections, r, hrun'⟩
          · rintro ⟨sections, r, hrun⟩
            obtain ⟨ds, hds⟩ : ∃ ds, checkHeaderSize .permissive
                (fatHeader (first :: tl)).headerDwords = .ok ds := by
              unfold checkHeaderSize
              split
              · exact ⟨_, rfl⟩
              · exact ⟨_, rfl⟩
            exact ⟨_, (parseWith_fat_ok_iff hfirst).mpr ⟨r, parseFat_ok_iff.mpr
              ⟨hlen, hfit, ds, sections, hds, rfl, hrun, rfl⟩⟩, rfl⟩
        · cases hrange

/-- A fat body of one `ret` that announces a section after its last byte. -/
def unalignedEnd : List UInt8 :=
  [0x0B, 0x30, 0x08, 0x00, 0x01, 0x00, 0x00, 0x00, 0x00, 0x00, 0x00, 0x00, 0x2A]

theorem unalignedEnd_code_iff :
    (∃ body, MethodBody.parse unalignedEnd 0 = .ok body ∧
        body.code = (unalignedEnd.drop 12).take 1) ↔
      (announcesSections unalignedEnd = true → Walkable unalignedEnd 13) :=
  MethodBody.parse_code_iff (by decide) (by decide) 0

/-- A readable code range is lost to the section that is missing after it. -/
theorem unalignedEnd_hidden :
    ¬ ∀ bytes start size codeRva, codeRange? bytes = some (start, size) →
      start + size ≤ bytes.length → ∃ body, MethodBody.parse bytes codeRva = .ok body ∧
        body.code = (bytes.drop start).take size := by
  intro h
  obtain ⟨body, hbody, _⟩ := h unalignedEnd 12 1 0 (by decide) (by decide)
  obtain ⟨r, hrun⟩ := (parseWith_fat_ok_iff (by decide)).mp hbody
  obtain ⟨_, _, _, sections, _, _, hsections, _⟩ := parseFat_ok_iff.mp hrun
  have hwalk := (readSections_permissive_iff _ _).mp ⟨sections, r, hsections⟩ (by decide)
  have hnone : sectionHeader? unalignedEnd 13 = none := by decide
  have hpos : Walkable unalignedEnd 13 := hwalk
  cases hpos with
  | last header _ _ =>
      rw [hnone] at header
      cases header
  | later header _ _ _ =>
      rw [hnone] at header
      cases header

end Cildec
