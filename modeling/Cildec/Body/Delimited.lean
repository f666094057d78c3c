import Cildec.Body.Strict
import Cildec.Pe.Rva
import Cildec.Tables.Rows

/-!
# Where a body ends (`src/body.rs`)

The section parser looks at the bytes that remain, for the size of a section, for its
truncation and for the end of the chain. `StrictSection` says what strict mode reads without
them: a section whose `DataSize` fits and counts whole clauses. What strict mode makes of a
body is then settled by the bytes up to `totalSize` (`parseWith_strict_agree`).

* `strict_self_delimiting`: whatever follows the body, strict mode reads the same one.
-/

namespace Cildec

open Wire

/-! ## Sections -/

/-- Strict mode lets a test pass when its condition is false. -/
theorem strict_test_iff {α : Type} {c : Prop} [Decidable c] {e : Error} {a b x : α} :
    (if c then (if Strictness.strict.isStrict then .error e else .ok a) else .ok b :
      Result α) = .ok x ↔ ¬ c ∧ x = b := by
  by_cases hc : c
  · simp [hc, Strictness.isStrict]
  · simp [hc, eq_comm]

/-- The tests of strict mode on the size of a section body leave one size, whatever number of
bytes remains. -/
theorem strict_sizes_iff {h : SectionHeader} {available : Nat} {sized clamped : Nat × List Diagnostic} :
    (sectionBodySize .strict h.isEh h.fat h.dataSize available h.start = .ok sized ∧
      clampBodySize .strict h.dataSize sized.1 available h.start = .ok clamped) ↔
    ¬ (h.isEh = true ∧ (h.dataSize - 4) % clauseSize h.fat ≠ 0 ∧
        h.dataSize % clauseSize h.fat = 0 ∧ h.dataSize ≤ available) ∧
      h.dataSize - 4 ≤ available ∧ sized = (h.dataSize - 4, []) ∧
      clamped = (h.dataSize - 4, []) := by
  unfold sectionBodySize clampBodySize
  simp only [strict_test_iff, Nat.not_lt]
  constructor
  · rintro ⟨⟨hvb, rfl⟩, hfits, rfl⟩
    exact ⟨hvb, hfits, rfl, rfl⟩
  · rintro ⟨hvb, hfits, rfl, rfl⟩
    exact ⟨⟨hvb, rfl⟩, hfits, rfl⟩

/-- Strict mode decodes whole clauses only. -/
theorem decodeSection_strict_whole {h : SectionHeader} {body : List UInt8} {decoded : Sections}
    (hrun : decodeSection .strict h.kind h.fat h.start body = .ok decoded) :
    h.isEh = true → body.length % clauseSize h.fat = 0 := by
  intro heh
  unfold decodeSection at hrun
  rw [if_pos (show (h.kind &&& 0x01 != 0) = true from heh)] at hrun
  obtain ⟨ds, hcheck, _⟩ := ok_bind_iff.mp hrun
  exact Decidable.not_not.mp (strict_test_iff.mp hcheck).1

/-- The section at `n` as strict mode reads it: its header, the bytes it declares, what they
decode to and where they end. -/
def StrictSection (bytes : List UInt8) (n : Nat) (decoded : Sections) (more : Bool)
    (stop : Nat) : Prop :=
  ∃ h, sectionHeader? bytes n = some h ∧ h.Conforming bytes.length ∧
    decodeSection .strict h.kind h.fat h.start ((bytes.drop h.bodyStart).take (h.dataSize - 4)) =
      .ok decoded ∧ more = h.more ∧ stop = h.bodyStart + (h.dataSize - 4)

/-- Which section bodies strict mode reads. -/
theorem readSectionBody_strict_iff {h : SectionHeader} {r r' : Reader} {decoded : Sections}
    {more : Bool} (hpos : r.pos = h.bodyStart) :
    (readSectionBody .strict h).run r = .ok (decoded, more) r' ↔
      h.Conforming r.data.length ∧
      decodeSection .strict h.kind h.fat h.start (r.rest.take (h.dataSize - 4)) = .ok decoded ∧
      more = h.more ∧ r' = r.advance (h.dataSize - 4) := by
  have hremaining : r.remaining = r.data.length - h.bodyStart := by rw [Reader.remaining, hpos]
  have hget : (get : Read Reader).run r = .ok r r := rfl
  rw [readSectionBody, run_bind_of_ok hget]
  constructor
  · intro hrun
    obtain ⟨sized, _, hrun1, hrun⟩ := run_bind_ok_iff.mp hrun
    obtain ⟨hsized, rfl⟩ := ofExcept_ok_iff.mp hrun1
    obtain ⟨clamped, r2, hrun2, hrun⟩ := run_bind_ok_iff.mp hrun
    obtain ⟨hclamped, rfl⟩ := ofExcept_ok_iff.mp hrun2
    obtain ⟨_, hfits, rfl, rfl⟩ := strict_sizes_iff.mp ⟨hsized, hclamped⟩
    obtain ⟨body, _, hrun3, hrun⟩ := run_bind_ok_iff.mp hrun
    obtain ⟨_, rfl, rfl⟩ := Reader.take_ok_iff.mp hrun3
    obtain ⟨content, _, hrun4, hrun⟩ := run_bind_ok_iff.mp hrun
    obtain ⟨hcontent, rfl⟩ := ofExcept_ok_iff.mp hrun4
    cases hrun
    have hlen : (r2.rest.take (h.dataSize - 4)).length = h.dataSize - 4 := by
      rw [List.length_take, Reader.rest_length, Nat.min_eq_left hfits]
    refine ⟨⟨hremaining ▸ hfits, ?_⟩, hcontent, rfl, rfl⟩
    have hwhole := decodeSection_strict_whole hcontent
    rwa [hlen] at hwhole
  · rintro ⟨⟨hfits, hwhole⟩, hcontent, rfl, rfl⟩
    rw [← hremaining] at hfits
    obtain ⟨hsized, hclamped⟩ := strict_sizes_iff.mpr
      ⟨fun hvb => hvb.2.1 (hwhole hvb.1), hfits, rfl, rfl⟩
    refine run_bind_ok_iff.mpr ⟨_, r, ofExcept_ok_iff.mpr ⟨hsized, rfl⟩, ?_⟩
    refine run_bind_ok_iff.mpr ⟨_, r, ofExcept_ok_iff.mpr ⟨hclamped, rfl⟩, ?_⟩
    refine run_bind_ok_iff.mpr ⟨_, _, Reader.take_run hfits, ?_⟩
    exact run_bind_ok_iff.mpr ⟨decoded, _, ofExcept_ok_iff.mpr ⟨hcontent, rfl⟩, rfl⟩

/-- Which sections strict mode reads, and where it stands afterwards. -/
theorem readSection_strict_iff {r : Reader} {decoded : Sections} {more : Bool} {stop : Nat} :
    (∃ r', (readSection .strict).run r = .ok (decoded, more) r' ∧ r'.pos = stop) ↔
      StrictSection r.data r.pos decoded more stop := by
  rw [readSection_eq]
  constructor
  · rintro ⟨r', hrun, rfl⟩
    obtain ⟨h, r1, hheader, hbody⟩ := run_bind_ok_iff.mp hrun
    obtain ⟨hh, hdata, hpos⟩ := readSectionHeader_ok hheader
    obtain ⟨hconforming, hdecode, rfl, rfl⟩ := (readSectionBody_strict_iff hpos).mp hbody
    have hend : h.dataSize - 4 ≤ r1.remaining := by
      rw [Reader.remaining, hpos]
      exact hconforming.fits
    rw [Reader.rest, hpos, hdata] at hdecode
    rw [hdata] at hconforming
    refine ⟨h, hh, hconforming, hdecode, rfl, ?_⟩
    rw [Reader.advance_pos hend, hpos]
  · rintro ⟨h, hh, hconforming, hdecode, rfl, rfl⟩
    obtain ⟨r1, hheader⟩ := readSectionHeader_run hh
    obtain ⟨_, hdata, hpos⟩ := readSectionHeader_ok hheader
    have hend : h.dataSize - 4 ≤ r1.remaining := by
      rw [Reader.remaining, hpos, hdata]
      exact hconforming.fits
    refine ⟨r1.advance (h.dataSize - 4), ?_, by rw [Reader.advance_pos hend, hpos]⟩
    refine run_bind_ok_iff.mpr ⟨h, r1, hheader, (readSectionBody_strict_iff hpos).mpr
      ⟨hdata ▸ hconforming, ?_, rfl, rfl⟩⟩
    rw [Reader.rest, hpos, hdata]
    exact hdecode

/-- The section is the same in all bytes that agree up to its end. -/
theorem StrictSection.agree {a b : List UInt8} {n stop : Nat} {decoded : Sections} {more : Bool}
    (hsection : StrictSection a n decoded more stop) (hagree : AgreeTo stop a b) :
    StrictSection b n decoded more stop := by
  obtain ⟨h, hheader, hconforming, hdecode, rfl, rfl⟩ := hsection
  obtain ⟨b0, b1, b2, tl, hdrop, hstart, hsize⟩ := sectionHeader?_inv hheader
  have hfour : h.bodyStart = alignUp n + 4 := by rw [SectionHeader.bodyStart, hstart]
  have hheader' : sectionHeader? b n = some h := by
    have hsame := hagree.slice (i := alignUp n) (k := 4) (by omega)
    rw [hdrop] at hsame
    obtain ⟨tl', hdrop'⟩ : ∃ tl', b.drop (alignUp n) = h.kind :: b0 :: b1 :: b2 :: tl' := by
      refine ⟨(b.drop (alignUp n)).drop 4, ?_⟩
      have hsplit := List.take_append_drop 4 (b.drop (alignUp n))
      rw [← hsame] at hsplit
      exact hsplit.symm
    rw [sectionHeader?_eq hdrop', ← hstart]
    show some (SectionHeader.mk h.start h.kind (dataSizeOf h.fat b0 b1 b2)) = some h
    rw [← hsize]
  refine ⟨h, hheader', ⟨?_, hconforming.whole⟩, ?_, rfl, rfl⟩
  · have hright := hagree.right
    omega
  · rw [← hagree.slice (Nat.le_refl _)]
    exact hdecode

/-! ## The chain -/

/-- A chain of sections moves the reader forward in the same bytes. -/
theorem parseSections_advances {strictness : Strictness} (sections : Sections) (r : Reader) :
    ∀ {result r'}, (parseSections strictness sections).run r = .ok result r' →
      r'.data = r.data ∧ r.pos < r'.pos := by
  have hstep {r r1 : Reader} {a : Sections × Bool}
      (h : (readSection strictness).run r = .ok a r1) : r1.data = r.data ∧ r.pos < r1.pos := by
    have hdata : r1.data = r.data := Reader.KeepsData.of_reads (consumes_section strictness) _ _ _ h
    have hless := remaining_lt_of_section h
    rw [Reader.remaining, Reader.remaining, hdata] at hless
    exact ⟨hdata, by omega⟩
  induction sections, r using chain_induction (s := strictness) with
  | step sections r ih =>
      intro result r' hrun
      obtain ⟨decoded, more, r1, hsection, hcase⟩ := parseSections_ok_iff.mp hrun
      obtain ⟨hdata, hpos⟩ := hstep hsection
      rcases hcase with ⟨_, _, rfl⟩ | ⟨_, _, _, _, rfl⟩ | ⟨rfl, _, hrest⟩
      · exact ⟨hdata, hpos⟩
      · exact ⟨hdata, hpos⟩
      · obtain ⟨hdata', hpos'⟩ := ih decoded r1 hsection hrest
        exact ⟨hdata'.trans hdata, hpos.trans hpos'⟩

/-- A chain that strict mode reads is read alike in all bytes that agree up to its end: the
next section it announces lies before that end, so the bytes never run out there. -/
theorem parseSections_strict_agree (sections : Sections) (r : Reader) :
    ∀ {result r' t}, (parseSections .strict sections).run r = .ok result r' →
      t.pos = r.pos → AgreeTo r'.pos r.data t.data →
      ∃ t', (parseSections .strict sections).run t = .ok result t' ∧ t'.pos = r'.pos := by
  induction sections, r using chain_induction (s := .strict) with
  | step sections r ih =>
      intro result r' t hrun hpos hagree
      obtain ⟨decoded, more, r1, hsection, hcase⟩ := parseSections_ok_iff.mp hrun
      have hdata : r1.data = r.data :=
        Reader.KeepsData.of_reads (consumes_section .strict) _ _ _ hsection
      have hle : r1.pos ≤ r'.pos := by
        rcases hcase with ⟨_, _, rfl⟩ | ⟨_, _, _, _, rfl⟩ | ⟨_, _, hrest⟩
        · exact Nat.le_refl _
        · exact Nat.le_refl _
        · exact Nat.le_of_lt (parseSections_advances _ _ hrest).2
      obtain ⟨t1, hsection', hpos'⟩ : ∃ t1,
          (readSection .strict).run t = .ok (decoded, more) t1 ∧ t1.pos = r1.pos := by
        refine readSection_strict_iff.mpr ?_
        rw [hpos]
        exact (readSection_strict_iff.mp ⟨r1, hsection, rfl⟩).agree (hagree.mono hle)
      have hdata' : t1.data = t.data :=
        Reader.KeepsData.of_reads (consumes_section .strict) _ _ _ hsection'
      rcases hcase with ⟨hlast, rfl, rfl⟩ | ⟨_, _, hstrict, _⟩ | ⟨rfl, _, hrest⟩
      · exact ⟨t1, parseSections_ok_iff.mpr
          ⟨decoded, more, t1, hsection', .inl ⟨hlast, rfl, rfl⟩⟩, hpos'⟩
      · cases hstrict
      · obtain ⟨t', hrest', hend⟩ := ih decoded r1 hsection hrest hpos'
          (by rw [hdata, hdata']; exact hagree)
        -- a section was read behind this one, so the other bytes go on as well
        have hempty : t1.isEmpty = false := by
          have hlt := (parseSections_advances _ _ hrest).2
          have hright := hagree.right
          rw [Reader.isEmpty, hdata', hpos', decide_eq_false_iff_not]
          omega
        exact ⟨t', parseSections_ok_iff.mpr
          ⟨decoded, true, t1, hsection', .inr (.inr ⟨rfl, hempty, hrest'⟩)⟩, hend⟩

/-! ## Bodies -/

/-- The fat header is the same in all bytes that agree up to its fields. -/
theorem fatHeader_agree {a b : List UInt8} (hagree : AgreeTo 12 a b) : fatHeader a = fatHeader b := by
  have h0 := hagree.slice (i := 0) (k := 2) (by omega)
  have h2 := hagree.slice (i := 2) (k := 2) (by omega)
  have h4 := hagree.slice (i := 4) (k := 4) (by omega)
  have h8 := hagree.slice (i := 8) (k := 4) (by omega)
  rw [List.drop_zero, List.drop_zero] at h0
  simp only [fatHeader, h0, h2, h4, h8]

/-- The sections end after the code, in the bytes, and are the same in all bytes that agree up
to there. -/
theorem readSections_strict_agree {flags : FatFlags} {sections : Sections} {r r' : Reader}
    (hrun : (readSections .strict flags).run r = .ok sections r') :
    r.pos ≤ r'.pos ∧ r'.pos ≤ r.data.length ∧
      ∀ t : Reader, t.pos = r.pos → AgreeTo r'.pos r.data t.data →
        ∃ t', (readSections .strict flags).run t = .ok sections t' ∧ t'.pos = r'.pos := by
  unfold readSections at hrun ⊢
  cases hmore : flags.moreSects with
  | false =>
      rw [hmore, if_neg Bool.false_ne_true] at hrun
      cases hrun
      refine ⟨Nat.le_refl _, r.pos_le, ?_⟩
      intro t hpos _
      exact ⟨t, rfl, hpos⟩
  | true =>
      rw [hmore, if_pos rfl] at hrun
      obtain ⟨hdata, hlt⟩ := parseSections_advances _ _ hrun
      refine ⟨Nat.le_of_lt hlt, hdata ▸ r'.pos_le, ?_⟩
      intro t hpos hagree
      exact parseSections_strict_agree _ r hrun hpos hagree

/-- A tiny body is its header byte and the code the byte counts. -/
theorem parseWith_tiny_ok_iff {first : UInt8} (hfirst : first &&& 0x03 = 0x02) {tl : List UInt8}
    {codeRva : UInt32} {strictness : Strictness} {body : MethodBody} :
    MethodBody.parseWith (first :: tl) codeRva strictness = .ok body ↔
      (first >>> 2).toNat ≤ tl.length ∧ body =
        { kind := .tiny, flags := ⟨0⟩, maxStack := 8, code := tl.take (first >>> 2).toNat,
          codeRva := codeRva + 1, localVarSig := none, exceptionHandlers := [],
          unknownSections := [], headerDwords := 0, totalSize := 1 + (first >>> 2).toNat,
          diagnostics := [] } := by
  have hrest : (Reader.new (first :: tl) 0 bodyContext).rest = first :: tl :=
    Reader.rest_new _ _ _
  have hrest' : ((Reader.new (first :: tl) 0 bodyContext).advance 1).rest = tl := by
    rw [Reader.advance_eq_moveTo, Reader.moveTo_rest (Nat.succ_le_succ (Nat.zero_le _))]
    rfl
  rw [MethodBody.parseWith_ok_iff, parseBody_run, if_pos hfirst, parseTiny,
    run_bind_of_ok (Reader.u8_run_cons hrest)]
  constructor
  · rintro ⟨r, hrun⟩
    obtain ⟨code, r1, htake, hrun⟩ := run_bind_ok_iff.mp hrun
    obtain ⟨hfits, rfl, _⟩ := Reader.take_ok_iff.mp htake
    cases hrun
    rw [← Reader.rest_length, hrest'] at hfits
    rw [hrest']
    exact ⟨hfits, rfl⟩
  · rintro ⟨hfits, rfl⟩
    rw [← hrest', Reader.rest_length] at hfits
    refine ⟨((Reader.new (first :: tl) 0 bodyContext).advance 1).advance (first >>> 2).toNat, ?_⟩
    rw [run_bind_of_ok (Reader.take_run hfits), hrest']
    rfl

/-- A body that strict mode reads ends in the bytes, and is the same in all bytes that agree up
to its end. -/
theorem MethodBody.parseWith_strict_agree {a : List UInt8} {codeRva : UInt32} {body : MethodBody}
    (hok : MethodBody.parseWith a codeRva .strict = .ok body) :
    body.totalSize ≤ a.length ∧ ∀ b, AgreeTo body.totalSize a b →
      MethodBody.parseWith b codeRva .strict = .ok body := by
  cases a with
  | nil => cases hok
  | cons first tl =>
      by_cases htiny : first &&& 0x03 = 0x02
      · obtain ⟨hfits, rfl⟩ := (parseWith_tiny_ok_iff htiny).mp hok
        refine ⟨by simp only [List.length_cons]; omega, ?_⟩
        intro b hagree
        have hagree : AgreeTo (1 + (first >>> 2).toNat) (first :: tl) b := hagree
        obtain ⟨tl', rfl⟩ := hagree.head (by omega)
        have hcode := hagree.slice (i := 1) (k := (first >>> 2).toNat) (Nat.le_refl _)
        have hright := hagree.right
        simp only [List.length_cons] at hright
        refine (parseWith_tiny_ok_iff htiny).mpr ⟨by omega, ?_⟩
        rw [show tl.take (first >>> 2).toNat = tl'.take (first >>> 2).toNat from hcode]
      · by_cases hfat : first &&& 0x03 = 0x03
        · obtain ⟨r, hrun⟩ := (parseWith_fat_ok_iff hfat).mp hok
          obtain ⟨hlen, hend, ds, sections, hds, hlocals, hsections, rfl⟩ := parseFat_ok_iff.mp hrun
          obtain ⟨hcodeEnd, hpos, hother⟩ := readSections_strict_agree hsections
          rw [Reader.moveTo_pos hend] at hcodeEnd
          refine ⟨hpos, ?_⟩
          intro b hagree
          have hagree : AgreeTo r.pos (first :: tl) b := hagree
          -- the header is part of what agrees
          have htwelve : 12 ≤ (fatHeader (first :: tl)).codeEnd := by
            have hsize : 3 ≤ max (fatHeader (first :: tl)).headerDwords.toNat 3 := Nat.le_max_right _ _
            rw [FatHeader.codeEnd, FatHeader.size]
            omega
          have hheader := fatHeader_agree (hagree.mono (htwelve.trans hcodeEnd))
          have hcode := hagree.slice (i := (fatHeader (first :: tl)).size)
            (k := (fatHeader (first :: tl)).codeSize) hcodeEnd
          have hright := hagree.right
          have hend' : (fatHeader (first :: tl)).codeEnd ≤ b.length := hcodeEnd.trans hright
          obtain ⟨r', hsections', hpos'⟩ := hother
            ((Reader.new b 0 bodyContext).moveTo (fatHeader (first :: tl)).codeEnd)
            (by rw [Reader.moveTo_pos hend', Reader.moveTo_pos hend]) hagree
          obtain ⟨tl', rfl⟩ := hagree.head (by omega)
          refine (parseWith_fat_ok_iff hfat).mpr ⟨r', parseFat_ok_iff.mpr ?_⟩
          rw [← hheader]
          refine ⟨by omega, hend', ds, sections, hds, hlocals, hsections', ?_⟩
          rw [FatHeader.body, FatHeader.body, hcode, hpos']
        · obtain ⟨r, hrun⟩ := MethodBody.parseWith_ok_iff.mp hok
          rw [parseBody_run, if_neg htiny, if_neg hfat] at hrun
          cases hrun

/-! ## Bodies of an image -/

/-- A `MethodDef` row (`MethodDefRow`). -/
abbrev MethodDefRow : Type := Cells methodDefRow.columns

namespace MethodDefRow

def rva (method : MethodDefRow) : UInt32 := method.1

def implFlags (method : MethodDefRow) : UInt16 := method.2.1

/-- `CodeTypeMask` of `ImplFlags` selects CIL. -/
def isIl (method : MethodDefRow) : Bool := method.implFlags &&& 0x0003 == 0x0000

/-- The method has no body: RVA 0, or a non-CIL implementation. -/
def hasNoBody (method : MethodDefRow) : Bool := method.rva == 0 || !method.isIl

end MethodDefRow

/-- Reads the body of a `MethodDef` row from an image. -/
def MethodBody.fromImage (image : PeImage) (method : MethodDefRow) :
    Result (Option MethodBody) := do
  if method.hasNoBody then
    return none
  else
    let bytes ← image.rvaRest method.rva
    let body ← MethodBody.parseWith bytes method.rva image.strictness
    return some body

/-- A body that strict mode accepts is delimited by itself: it ends in the bytes, and whatever
follows its end, strict mode reads an equal body. So a method of an image does not depend on
the bytes of the section after its body. -/
theorem strict_self_delimiting :
    (∀ bytes codeRva body, MethodBody.parseWith bytes codeRva .strict = .ok body →
      body.totalSize ≤ bytes.length ∧ ∀ s,
        MethodBody.parseWith (bytes.take body.totalSize ++ s) codeRva .strict = .ok body) ∧
    (∀ (image : PeImage) (method : MethodDefRow) body, image.strictness = .strict →
      MethodBody.fromImage image method = .ok (some body) →
      ∃ bytes, image.rvaRest method.rva = .ok bytes ∧ body.totalSize ≤ bytes.length ∧
        ∀ (other : PeImage) s, other.strictness = .strict →
          other.rvaRest method.rva = .ok (bytes.take body.totalSize ++ s) →
          MethodBody.fromImage other method = .ok (some body)) := by
  refine ⟨?_, ?_⟩
  · intro bytes codeRva body hok
    obtain ⟨hle, hagree⟩ := MethodBody.parseWith_strict_agree hok
    exact ⟨hle, fun s => hagree _ (AgreeTo.take_append hle s)⟩
  · intro image method body hstrict hok
    unfold MethodBody.fromImage at hok ⊢
    cases hbody : method.hasNoBody with
    | true =>
        rw [hbody] at hok
        cases hok
    | false =>
        rw [hbody, if_neg Bool.false_ne_true] at hok
        obtain ⟨bytes, hbytes, hok⟩ := ok_bind_iff.mp hok
        obtain ⟨body', hparse, hok⟩ := ok_bind_iff.mp hok
        cases hok
        rw [hstrict] at hparse
        obtain ⟨hle, hagree⟩ := MethodBody.parseWith_strict_agree hparse
        refine ⟨bytes, hbytes, hle, ?_⟩
        intro other s hother hrest
        rw [if_neg Bool.false_ne_true, hrest, hother]
        exact ok_bind_iff.mpr ⟨_, rfl,
          ok_bind_iff.mpr ⟨body, hagree _ (AgreeTo.take_append hle s), rfl⟩⟩

/-- A fat body of four instructions with one clause. -/
def guardedBody : List UInt8 :=
  [0x0B, 0x30, 0x08, 0x00, 0x04, 0x00, 0x00, 0x00, 0x00, 0x00, 0x00, 0x00, 0x00, 0x00, 0x00,
    0x2A, 0x01, 0x10, 0x00, 0x00, 0x02, 0x00, 0x00, 0x00, 0x01, 0x01, 0x00, 0x01, 0x00, 0x00,
    0x00, 0x00]

/-- An image whose only section holds `bytes`. -/
def imageOf (bytes : List UInt8) : PeImage where
  bytes := bytes
  strictness := .strict
  diagnostics := []
  machine := 0x014C
  characteristics := 0
  isPe32Plus := false
  imageBase := 0x00400000
  sectionAlignment := 0x2000
  fileAlignment := 0x200
  sizeOfImage := 0x4000
  sizeOfHeaders := 0
  subsystem := 3
  dllCharacteristics := 0
  entryPointRva := 0
  dataDirectories := []
  sections := [⟨[], 0x2000, 0x2000, UInt32.ofNat bytes.length, 0, 0x60000020⟩]

/-- A method whose body is at the start of that section. -/
def methodAtStart : MethodDefRow :=
  ((0x2000 : UInt32), (0 : UInt16), (0 : UInt16), StringIndex.mk 0, BlobIndex.mk 0, Rid.mk 0, ())

theorem guardedBody_strict (codeRva : UInt32) :
    ∃ body, MethodBody.parseWith guardedBody codeRva .strict = .ok body ∧ body.totalSize = 32 := by
  have hdecode : (decodeSection .strict 0x01 false 16
      ((guardedBody.drop 20).take 12)).isOk := by decide +kernel
  obtain ⟨decoded, hdecode⟩ := exists_ok_of_isOk hdecode
  obtain ⟨r, hsection, hpos⟩ := (readSection_strict_iff
    (r := (Reader.new guardedBody 0 bodyContext).moveTo 16)).mpr
      ⟨⟨16, 0x01, 16⟩, rfl, ⟨by decide, by decide⟩, hdecode, rfl, rfl⟩
  have hsections : (readSections .strict (fatHeader guardedBody).flags).run
      ((Reader.new guardedBody 0 bodyContext).moveTo 16) =
        .ok (Sections.append ⟨[], [], []⟩ decoded) r :=
    parseSections_ok_iff.mpr ⟨decoded, false, r, hsection, .inl ⟨rfl, rfl, rfl⟩⟩
  exact ⟨_, (parseWith_fat_ok_iff rfl).mpr ⟨r, parseFat_ok_iff.mpr
    ⟨by decide, by decide, [], _, rfl, rfl, hsections, rfl⟩⟩, hpos⟩

theorem strict_self_delimiting_guarded :
    ∃ body, MethodBody.parseWith (guardedBody ++ [0xFF]) 0x2000 .strict = .ok body ∧
      MethodBody.fromImage (imageOf (guardedBody ++ [0xFF])) methodAtStart = .ok (some body) := by
  obtain ⟨body, hbody, hsize⟩ := guardedBody_strict 0x2000
  have hrest : (imageOf guardedBody).rvaRest methodAtStart.rva = .ok guardedBody := rfl
  have himage : MethodBody.fromImage (imageOf guardedBody) methodAtStart = .ok (some body) := by
    rw [MethodBody.fromImage, if_neg (by decide), hrest]
    exact ok_bind_iff.mpr ⟨_, rfl, ok_bind_iff.mpr ⟨body, hbody, rfl⟩⟩
  obtain ⟨_, hsuffix⟩ := strict_self_delimiting.1 _ _ _ hbody
  obtain ⟨bytes, hbytes, _, hother⟩ := strict_self_delimiting.2 _ _ _ rfl himage
  cases hrest.symm.trans hbytes
  rw [hsize] at hsuffix hother
  exact ⟨body, hsuffix [0xFF], hother _ [0xFF] rfl rfl⟩

end Cildec
