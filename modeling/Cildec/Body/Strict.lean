import Cildec.Body.Header
import Cildec.Body.RoundTrip
import Cildec.Lib.Narrow

/-!
# Method bodies in strict mode (`src/body.rs`)

Every size test of a section narrows the permissive one (`readSection_narrows`): strict mode
reads a section exactly when permissive mode reads it without a diagnostic. Two tests of the
body are left, which permissive mode passes in silence: the table of the locals token, and
a chain of sections that announces another one where the bytes end (`CutShort`).

* `MethodBody.parseWith_up`: strict mode only rejects more;
* `MethodBody.parseWith_strict_iff`: when it rejects nothing that left no diagnostic;
* `MethodBody.parseWith_strict_quiet`: what it reads has no diagnostics.
-/

namespace Cildec

open Wire

/-! ## Sections -/

theorem sectionBodySize_narrows (isEh fat : Bool) (declared remaining sectionStart : Nat) :
    Narrows (fun x => x.2 = [])
      (sectionBodySize .strict isEh fat declared remaining sectionStart)
      (sectionBodySize .permissive isEh fat declared remaining sectionStart) :=
  Narrows.test (List.cons_ne_nil _ _)

theorem clampBodySize_narrows (declared bodySize available sectionStart : Nat) :
    Narrows (fun x => x.2 = []) (clampBodySize .strict declared bodySize available sectionStart)
      (clampBodySize .permissive declared bodySize available sectionStart) :=
  Narrows.test (List.cons_ne_nil _ _)

theorem checkWholeClauses_narrows (fat : Bool) (length sectionStart : Nat) :
    Narrows (fun ds => ds = []) (checkWholeClauses .strict fat length sectionStart)
      (checkWholeClauses .permissive fat length sectionStart) :=
  Narrows.test (List.cons_ne_nil _ _)

theorem decodeSection_narrows (kind : UInt8) (fat : Bool) (sectionStart : Nat)
    (body : List UInt8) :
    Narrows (fun d => d.diagnostics = []) (decodeSection .strict kind fat sectionStart body)
      (decodeSection .permissive kind fat sectionStart body) := by
  unfold decodeSection
  split
  · refine (checkWholeClauses_narrows fat body.length sectionStart).bind ?_ ?_
    · intro ds decoded hdecoded hquiet
      obtain ⟨handlers, _, hpure⟩ := ok_bind_iff.mp hdecoded
      cases hpure
      exact hquiet
    · intro ds
      exact Narrows.refl _ _
  · exact Narrows.refl _ _

/-- Strict mode reads the sections that leave no diagnostic. -/
theorem readSection_narrows :
    NarrowsM (fun a => a.1.diagnostics = []) (readSection .strict) (readSection .permissive) := by
  rw [readSection_eq, readSection_eq]
  refine NarrowsM.seq _ fun h => ?_
  unfold readSectionBody
  refine NarrowsM.seq get fun r => ?_
  refine (NarrowsM.ofExcept (sectionBodySize_narrows _ _ _ _ _)).bind ?_ ?_
  · intro sized s a s' hrun hquiet
    obtain ⟨clamped, _, _, hrun⟩ := run_bind_ok_iff.mp hrun
    obtain ⟨body, _, _, hrun⟩ := run_bind_ok_iff.mp hrun
    obtain ⟨decoded, _, _, hrun⟩ := run_bind_ok_iff.mp hrun
    cases hrun
    exact (List.append_eq_nil_iff.mp (List.append_eq_nil_iff.mp hquiet).1).1
  · intro sized
    refine (NarrowsM.ofExcept (clampBodySize_narrows _ _ _ _)).bind ?_ ?_
    · intro clamped s a s' hrun hquiet
      obtain ⟨body, _, _, hrun⟩ := run_bind_ok_iff.mp hrun
      obtain ⟨decoded, _, _, hrun⟩ := run_bind_ok_iff.mp hrun
      cases hrun
      exact (List.append_eq_nil_iff.mp (List.append_eq_nil_iff.mp hquiet).1).2
    · intro clamped
      refine NarrowsM.seq _ fun body => ?_
      refine (NarrowsM.ofExcept (decodeSection_narrows _ _ _ _)).bind ?_ ?_
      · intro decoded s a s' hrun hquiet
        cases hrun
        exact (List.append_eq_nil_iff.mp hquiet).2
      · intro decoded
        exact NarrowsM.refl _ _

/-! ## The chain -/

/-- What a chain that is read consists of: a section, and either the end of the chain, or
the end of the bytes where permissive mode stops, or the rest of the chain. -/
theorem parseSections_ok_iff {strictness : Strictness} {sections result : Sections}
    {r r' : Reader} :
    (parseSections strictness sections).run r = .ok result r' ↔
      ∃ decoded more r1, (readSection strictness).run r = .ok (decoded, more) r1 ∧
        ((more = false ∧ result = sections.append decoded ∧ r' = r1) ∨
         (more = true ∧ r1.isEmpty = true ∧ strictness.isStrict = false ∧
            result = sections.append decoded ∧ r' = r1) ∨
         (more = true ∧ r1.isEmpty = false ∧
            (parseSections strictness (sections.append decoded)).run r1 = .ok result r')) := by
  rw [parseSections_run]
  constructor
  · intro h
    split at h
    · cases h
    · rename_i decoded more r1 hsection
      refine ⟨decoded, more, r1, hsection, ?_⟩
      cases more with
      | false =>
          cases h
          exact .inl ⟨rfl, rfl, rfl⟩
      | true =>
          cases hempty : r1.isEmpty with
          | true =>
              simp only [hempty, Bool.not_true, Bool.false_eq_true, if_false, if_true] at h
              split at h
              · cases h
              · rename_i hstrict
                cases h
                exact .inr (.inl ⟨rfl, rfl, Bool.eq_false_iff.mpr hstrict, rfl, rfl⟩)
          | false =>
              simp only [hempty, Bool.not_true, Bool.false_eq_true, if_false] at h
              exact .inr (.inr ⟨rfl, rfl, h⟩)
  · rintro ⟨decoded, more, r1, hsection, hcase⟩
    rw [hsection]
    rcases hcase with ⟨rfl, rfl, rfl⟩ | ⟨rfl, hempty, hstrict, rfl, rfl⟩ | ⟨rfl, hempty, hrun⟩
    · rfl
    · simp only [hempty, hstrict, Bool.not_true, Bool.false_eq_true, if_false, if_true]
    · simp only [hempty, Bool.not_true, Bool.false_eq_true, if_false]
      exact hrun

/-- Whether a chain is read, when its first section is. -/
theorem exists_parseSections_iff {strictness : Strictness} {sections decoded : Sections}
    {more : Bool} {r r1 : Reader} (hsection : (readSection strictness).run r = .ok (decoded, more) r1) :
    (∃ a t, (parseSections strictness sections).run r = .ok a t) ↔
      more = false ∨ (r1.isEmpty = true ∧ strictness.isStrict = false) ∨
        (r1.isEmpty = false ∧
          ∃ a t, (parseSections strictness (sections.append decoded)).run r1 = .ok a t) := by
  constructor
  · rintro ⟨a, t, hrun⟩
    obtain ⟨decoded', more', r2, hsection', hcase⟩ := parseSections_ok_iff.mp hrun
    rw [hsection] at hsection'
    cases hsection'
    rcases hcase with ⟨hlast, _⟩ | ⟨_, hempty, hstrict, _⟩ | ⟨_, hempty, hrest⟩
    · exact .inl hlast
    · exact .inr (.inl ⟨hempty, hstrict⟩)
    · exact .inr (.inr ⟨hempty, a, t, hrest⟩)
  · intro hcase
    cases hmore : more with
    | false =>
        exact ⟨_, r1, parseSections_ok_iff.mpr ⟨_, _, _, hsection, .inl ⟨hmore, rfl, rfl⟩⟩⟩
    | true =>
        rcases hcase with hlast | ⟨hempty, hstrict⟩ | ⟨hempty, a, t, hrest⟩
        · rw [hmore] at hlast
          cases hlast
        · exact ⟨_, r1, parseSections_ok_iff.mpr
            ⟨_, _, _, hsection, .inr (.inl ⟨hmore, hempty, hstrict, rfl, rfl⟩)⟩⟩
        · exact ⟨a, t, parseSections_ok_iff.mpr
            ⟨_, _, _, hsection, .inr (.inr ⟨hmore, hempty, hrest⟩)⟩⟩

/-- Induction along a chain of sections: from the readers it continues with to the reader
it starts with. -/
theorem chain_induction {s : Strictness} {motive : Sections → Reader → Prop}
    (step : ∀ sections r, (∀ decoded r', (readSection s).run r = .ok (decoded, true) r' →
      motive (sections.append decoded) r') → motive sections r) :
    ∀ sections r, motive sections r := by
  intro sections r
  induction hn : r.remaining using Nat.strong_induction_on generalizing sections r with
  | _ n ih =>
      refine step sections r fun decoded r' hrun => ?_
      exact ih r'.remaining (hn ▸ remaining_lt_of_section hrun) _ r' rfl

/-- A chain adds its diagnostics to those that are there. -/
theorem parseSections_diagnostics {strictness : Strictness} (sections : Sections) (r : Reader) :
    ∀ {result r'}, (parseSections strictness sections).run r = .ok result r' →
      ∃ ds, result.diagnostics = sections.diagnostics ++ ds := by
  induction sections, r using chain_induction (s := strictness) with
  | step sections r ih =>
      intro result r' hrun
      obtain ⟨decoded, more, r1, hsection, hcase⟩ := parseSections_ok_iff.mp hrun
      rcases hcase with ⟨_, rfl, _⟩ | ⟨_, _, _, rfl, _⟩ | ⟨rfl, _, hrest⟩
      · exact ⟨decoded.diagnostics, rfl⟩
      · exact ⟨decoded.diagnostics, rfl⟩
      · obtain ⟨ds, hds⟩ := ih decoded r1 hsection hrest
        refine ⟨decoded.diagnostics ++ ds, ?_⟩
        rw [hds, Sections.append, List.append_assoc]

/-- A chain that strict mode reads is read alike in permissive mode. -/
theorem parseSections_up (sections : Sections) (r : Reader) :
    ∀ {result r'}, (parseSections .strict sections).run r = .ok result r' →
      (parseSections .permissive sections).run r = .ok result r' := by
  induction sections, r using chain_induction (s := .strict) with
  | step sections r ih =>
      intro result r' hrun
      obtain ⟨decoded, more, r1, hsection, hcase⟩ := parseSections_ok_iff.mp hrun
      have hsection' := readSection_narrows.up _ _ _ hsection
      refine parseSections_ok_iff.mpr ⟨decoded, more, r1, hsection', ?_⟩
      rcases hcase with hlast | ⟨_, _, hstrict, _⟩ | ⟨rfl, hempty, hrest⟩
      · exact .inl hlast
      · cases hstrict
      · exact .inr (.inr ⟨rfl, hempty, ih decoded r1 hsection hrest⟩)

/-- A chain of sections that announces another one where the bytes end. Each section takes
the bytes it declares. -/
inductive CutShort (bytes : List UInt8) : Nat → Prop where
  | here {n : Nat} {h : SectionHeader} (header : sectionHeader? bytes n = some h)
      (more : h.more = true) (ends : h.bodyStart + (h.dataSize - 4) = bytes.length) :
      CutShort bytes n
  | later {n : Nat} {h : SectionHeader} (header : sectionHeader? bytes n = some h)
      (more : h.more = true) (rest : CutShort bytes (h.bodyStart + (h.dataSize - 4))) :
      CutShort bytes n

/-- A chain without diagnostics is read in strict mode, unless it is cut short. -/
theorem parseSections_strict_iff (sections : Sections) (r : Reader) :
    ∀ {result r'}, (parseSections .permissive sections).run r = .ok result r' →
      result.diagnostics = [] →
      ((∃ a t, (parseSections .strict sections).run r = .ok a t) ↔ ¬ CutShort r.data r.pos) := by
  induction sections, r using chain_induction (s := .permissive) with
  | step sections r ih =>
      intro result r' hrun hquiet
      obtain ⟨decoded, more, r1, hsection, hcase⟩ := parseSections_ok_iff.mp hrun
      have hdecoded : decoded.diagnostics = [] := by
        have happend : ∃ ds, result.diagnostics = (sections.append decoded).diagnostics ++ ds := by
          rcases hcase with ⟨_, rfl, _⟩ | ⟨_, _, _, rfl, _⟩ | ⟨_, _, hrest⟩
          · exact ⟨[], (List.append_nil _).symm⟩
          · exact ⟨[], (List.append_nil _).symm⟩
          · exact parseSections_diagnostics _ _ hrest
        obtain ⟨ds, hds⟩ := happend
        rw [hquiet] at hds
        exact (List.append_eq_nil_iff.mp (List.append_eq_nil_iff.mp hds.symm).1).2
      have hstrict := readSection_narrows.down _ _ _ hsection hdecoded
      obtain ⟨h, hheader, rfl, _, hdata, hpos, hconforming⟩ := section_ok hsection
      have hend : r1.pos = h.bodyStart + (h.dataSize - 4) := by
        rw [hpos, SectionHeader.next, (hconforming hdecoded).bodySize_eq]
      have hempty : r1.isEmpty = true ↔ h.bodyStart + (h.dataSize - 4) = r.data.length := by
        have hle := r1.pos_le
        rw [hdata] at hle
        rw [Reader.isEmpty, decide_eq_true_iff, hdata, ← hend]
        omega
      -- the header at an offset is unique, so a cut shows in the first section or after it
      have hcut : CutShort r.data r.pos ↔
          h.more = true ∧ (r1.isEmpty = true ∨ CutShort r1.data r1.pos) := by
        rw [hempty, hdata, hend]
        constructor
        · intro hcut
          cases hcut with
          | here header hmore ends =>
              rw [hheader] at header
              cases header
              exact ⟨hmore, .inl ends⟩
          | later header hmore rest =>
              rw [hheader] at header
              cases header
              exact ⟨hmore, .inr rest⟩
        · rintro ⟨hmore, hends | hrest⟩
          · exact .here hheader hmore hends
          · exact .later hheader hmore hrest
      rw [hcut, exists_parseSections_iff hstrict]
      rcases hcase with ⟨hmore, _, _⟩ | ⟨hmore, hends, _, _⟩ | ⟨hmore, hends, hrest⟩
      · simp [hmore]
      · simp [hmore, hends, Strictness.isStrict]
      · have hih := ih decoded r1 (hmore ▸ hsection) hrest hquiet
        rw [hih, hmore, hends]
        simp

/-! ## Bodies -/

theorem checkHeaderSize_narrows (headerDwords : UInt8) :
    Narrows (fun ds => ds = []) (checkHeaderSize .strict headerDwords)
      (checkHeaderSize .permissive headerDwords) :=
  Narrows.test (List.cons_ne_nil _ _)

theorem readSections_up {flags : FatFlags} {r r' : Reader} {sections : Sections}
    (hrun : (readSections .strict flags).run r = .ok sections r') :
    (readSections .permissive flags).run r = .ok sections r' := by
  unfold readSections at hrun ⊢
  split
  · rename_i hmore
    rw [if_pos hmore] at hrun
    exact parseSections_up _ _ hrun
  · rename_i hmore
    rwa [if_neg hmore] at hrun

/-- Sections without diagnostics are read in strict mode, unless their chain is cut short. -/
theorem readSections_strict_iff {flags : FatFlags} {r r' : Reader} {sections : Sections}
    (hrun : (readSections .permissive flags).run r = .ok sections r')
    (hquiet : sections.diagnostics = []) :
    (∃ a t, (readSections .strict flags).run r = .ok a t) ↔
      ¬ (flags.moreSects = true ∧ CutShort r.data r.pos) := by
  unfold readSections at hrun ⊢
  cases hmore : flags.moreSects with
  | false =>
      refine iff_of_true ⟨_, _, rfl⟩ ?_
      rintro ⟨hfalse, _⟩
      cases hfalse
  | true =>
      rw [hmore, if_pos rfl] at hrun
      rw [if_pos rfl, parseSections_strict_iff _ r hrun hquiet]
      simp

/-- A body that strict mode reads is read alike in permissive mode. -/
theorem MethodBody.parseWith_up {bytes : List UInt8} {codeRva : UInt32} {body : MethodBody}
    (h : MethodBody.parseWith bytes codeRva .strict = .ok body) :
    MethodBody.parseWith bytes codeRva .permissive = .ok body := by
  cases bytes with
  | nil => cases h
  | cons first tl =>
      by_cases htiny : first &&& 0x03 = 0x02
      · rwa [parseWith_tiny htiny tl codeRva .permissive .strict]
      · by_cases hfat : first &&& 0x03 = 0x03
        · obtain ⟨r, hrun⟩ := (parseWith_fat_ok_iff hfat).mp h
          obtain ⟨hlen, hend, ds, sections, hds, _, hsections, rfl⟩ := parseFat_ok_iff.mp hrun
          refine (parseWith_fat_ok_iff hfat).mpr ⟨r, parseFat_ok_iff.mpr
            ⟨hlen, hend, ds, sections, ?_, rfl, readSections_up hsections, rfl⟩⟩
          exact (checkHeaderSize_narrows _).up ds hds
        · obtain ⟨r, hrun⟩ := MethodBody.parseWith_ok_iff.mp h
          rw [parseBody_run, if_neg htiny, if_neg hfat] at hrun
          cases hrun

/-- What a test that is an error in strict mode lets through there. -/
theorem eq_of_strict_test {α : Type} {c : Prop} [Decidable c] {e : Error} {a b x : α}
    (h : (if c then if Strictness.strict.isStrict then .error e else .ok x else .ok b :
      Result α) = .ok a) : a = b := by
  rw [Strictness.isStrict, if_pos rfl, error_if_ok_iff] at h
  exact (Except.ok.inj h.2).symm

theorem decodeSection_strict_quiet {kind : UInt8} {fat : Bool} {sectionStart : Nat}
    {body : List UInt8} {decoded : Sections}
    (h : decodeSection .strict kind fat sectionStart body = .ok decoded) :
    decoded.diagnostics = [] := by
  unfold decodeSection at h
  split at h
  · obtain ⟨ds, hds, h⟩ := ok_bind_iff.mp h
    obtain ⟨handlers, _, h⟩ := ok_bind_iff.mp h
    cases h
    exact eq_of_strict_test hds
  · cases h
    rfl

/-- A section that strict mode reads leaves no diagnostic: each of its tests is an error there. -/
theorem readSection_strict_quiet :
    Returns (readSection .strict) fun a => a.1.diagnostics = [] := by
  rw [readSection_eq]
  refine Returns.then fun h => ?_
  unfold readSectionBody
  refine Returns.then fun r => ?_
  refine Returns.bind (Returns.ofExcept (Q := fun x => x.2 = []) ?_) fun sized hsized => ?_
  · intro sized h
    exact congrArg Prod.snd (eq_of_strict_test h)
  refine Returns.bind (Returns.ofExcept (Q := fun x => x.2 = []) ?_) fun clamped hclamped => ?_
  · intro clamped h
    exact congrArg Prod.snd (eq_of_strict_test h)
  refine Returns.then fun body => ?_
  refine Returns.bind (Returns.ofExcept (Q := fun d => d.diagnostics = []) ?_)
    fun decoded hdecoded => ?_
  · intro decoded h
    exact decodeSection_strict_quiet h
  · refine Returns.pure ?_
    simp only [Sections.append, hsized, hclamped, hdecoded, List.append_nil]

/-- A chain that strict mode reads adds no diagnostic. -/
theorem parseSections_strict_quiet (sections : Sections) (r : Reader) :
    ∀ {result r'}, (parseSections .strict sections).run r = .ok result r' →
      result.diagnostics = sections.diagnostics := by
  induction sections, r using chain_induction (s := .strict) with
  | step sections r ih =>
      intro result r' hrun
      obtain ⟨decoded, more, r1, hsection, hcase⟩ := parseSections_ok_iff.mp hrun
      have happend : (sections.append decoded).diagnostics = sections.diagnostics := by
        rw [Sections.append, readSection_strict_quiet _ _ _ hsection, List.append_nil]
      rcases hcase with ⟨_, rfl, _⟩ | ⟨_, _, _, rfl, _⟩ | ⟨rfl, _, hrest⟩
      · exact happend
      · exact happend
      · exact (ih decoded r1 hsection hrest).trans happend

/-- A body that strict mode reads has no diagnostics. -/
theorem MethodBody.parseWith_strict_quiet {bytes : List UInt8} {codeRva : UInt32}
    {body : MethodBody} (h : MethodBody.parseWith bytes codeRva .strict = .ok body) :
    body.diagnostics = [] := by
  obtain ⟨r, hrun⟩ := MethodBody.parseWith_ok_iff.mp h
  cases bytes with
  | nil => cases h
  | cons first tl =>
      rw [parseBody_run] at hrun
      split at hrun
      · obtain ⟨header, _, _, hrun⟩ := run_bind_ok_iff.mp hrun
        obtain ⟨code, _, _, hrun⟩ := run_bind_ok_iff.mp hrun
        cases hrun
        rfl
      · split at hrun
        · obtain ⟨_, _, ds, sections, hds, _, hsections, rfl⟩ := parseFat_ok_iff.mp hrun
          have hquiet : sections.diagnostics = [] := by
            unfold readSections at hsections
            split at hsections
            · exact parseSections_strict_quiet _ _ hsections
            · cases hsections
              rfl
          show ds ++ sections.diagnostics = []
          rw [eq_of_strict_test hds, hquiet]
          rfl
        · cases hrun

/-- The locals token of a fat header, if there is one, names a stand-alone signature. -/
def LocalsConform : List UInt8 → Prop
  | [] => True
  | first :: tl => first &&& 0x03 = 0x03 →
      ∀ t, (fatHeader (first :: tl)).localVarSig = some t → t.table = some .standAloneSig

theorem checkLocalVarSig_strict_iff (localVarSig : Option Token) :
    checkLocalVarSig .strict localVarSig = .ok () ↔
      ∀ t, localVarSig = some t → t.table = some .standAloneSig := by
  unfold checkLocalVarSig
  cases localVarSig with
  | none => simp [Strictness.isStrict]
  | some t =>
      by_cases htable : t.table = some .standAloneSig
      · simp [Strictness.isStrict, htable]
      · simp [Strictness.isStrict, htable]

/-- Where strict mode reads a body that permissive mode reads without a diagnostic: the
locals token names a stand-alone signature, and no chain of sections is cut short. -/
theorem MethodBody.parseWith_strict_iff {bytes : List UInt8} {codeRva : UInt32}
    {body : MethodBody} (hok : MethodBody.parseWith bytes codeRva .permissive = .ok body)
    (hquiet : body.diagnostics = []) :
    (∃ b, MethodBody.parseWith bytes codeRva .strict = .ok b) ↔
      LocalsConform bytes ∧
        ¬ (announcesSections bytes = true ∧ CutShort bytes (fatHeader bytes).codeEnd) := by
  cases bytes with
  | nil => cases hok
  | cons first tl =>
      -- a tiny body is read alike in both modes, and other leading bits start no body
      by_cases htiny : first &&& 0x03 = 0x02
      · have hfat : first &&& 0x03 ≠ 0x03 := by
          rw [htiny]
          decide
        refine iff_of_true ⟨body, ?_⟩ ⟨fun h => absurd h hfat, ?_⟩
        · rwa [parseWith_tiny htiny tl codeRva .strict .permissive]
        · rintro ⟨hsections, _⟩
          simp [announcesSections, hfat] at hsections
      · by_cases hfat : first &&& 0x03 = 0x03
        · obtain ⟨r, hrun⟩ := (parseWith_fat_ok_iff hfat).mp hok
          obtain ⟨hlen, hend, ds, sections, hds, _, hsections, rfl⟩ := parseFat_ok_iff.mp hrun
          obtain ⟨rfl, hsecquiet⟩ := List.append_eq_nil_iff.mp hquiet
          have hds' := (checkHeaderSize_narrows _).down _ hds rfl
          have hchain := readSections_strict_iff hsections hsecquiet
          rw [Reader.moveTo_pos hend] at hchain
          have hannounces : announcesSections (first :: tl) =
              (fatHeader (first :: tl)).flags.moreSects := by
            rw [announcesSections, hfat]
            rfl
          rw [hannounces]
          rw [show (Reader.moveTo (fatHeader (first :: tl)).codeEnd
            (Reader.new (first :: tl) 0 bodyContext)).data = first :: tl from rfl] at hchain
          rw [← hchain, LocalsConform, ← checkLocalVarSig_strict_iff]
          constructor
          · rintro ⟨b, hb⟩
            obtain ⟨r', hrun'⟩ := (parseWith_fat_ok_iff hfat).mp hb
            obtain ⟨_, _, _, sections', _, hlocals, hsections', _⟩ := parseFat_ok_iff.mp hrun'
            exact ⟨fun _ => hlocals, sections', r', hsections'⟩
          · rintro ⟨hlocals, sections', r', hsections'⟩
            exact ⟨_, (parseWith_fat_ok_iff hfat).mpr ⟨r', parseFat_ok_iff.mpr
              ⟨hlen, hend, [], sections', hds', hlocals hfat, hsections', rfl⟩⟩⟩
        · obtain ⟨r, hrun⟩ := MethodBody.parseWith_ok_iff.mp hok
          rw [parseBody_run, if_neg htiny, if_neg hfat] at hrun
          cases hrun

/-- A fat body of one `ret`, whose locals token names a row of `TypeRef`. -/
def typeRefLocals : List UInt8 :=
  [0x03, 0x30, 0x08, 0x00, 0x01, 0x00, 0x00, 0x00, 0x01, 0x00, 0x00, 0x01, 0x2A]

/-- Permissive mode reads the body without a diagnostic. -/
theorem typeRefLocals_permissive :
    ∃ body, MethodBody.parseWith typeRefLocals 0 .permissive = .ok body ∧ body.diagnostics = [] := by
  have hok : (MethodBody.parseWith typeRefLocals 0 .permissive).isOk := by decide +kernel
  obtain ⟨body, hbody⟩ := exists_ok_of_isOk hok
  have hx : (MethodBody.parseWith typeRefLocals 0 .permissive).toOption.map
      (fun b => b.diagnostics) = some [] := by decide +kernel
  rw [hbody] at hx
  exact ⟨body, hbody, Option.some.inj hx⟩

/-- Strict mode rejects what permissive mode read without a diagnostic. -/
theorem typeRefLocals_rejected :
    ¬ ∀ bytes codeRva body, MethodBody.parseWith bytes codeRva .permissive = .ok body →
      body.diagnostics = [] → ∃ b, MethodBody.parseWith bytes codeRva .strict = .ok b := by
  intro h
  obtain ⟨body, hbody, hquiet⟩ := typeRefLocals_permissive
  obtain ⟨b, hb⟩ := h typeRefLocals 0 body hbody hquiet
  have hfail : (MethodBody.parseWith typeRefLocals 0 .strict).isOk = false := by decide +kernel
  rw [hb] at hfail
  cases hfail

theorem typeRefLocals_strict_iff :
    (∃ b, MethodBody.parseWith typeRefLocals 0 .strict = .ok b) ↔
      LocalsConform typeRefLocals ∧ ¬ (announcesSections typeRefLocals = true ∧
        CutShort typeRefLocals (fatHeader typeRefLocals).codeEnd) := by
  obtain ⟨body, hbody, hquiet⟩ := typeRefLocals_permissive
  exact MethodBody.parseWith_strict_iff hbody hquiet

end Cildec
