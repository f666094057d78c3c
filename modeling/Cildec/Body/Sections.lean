import Cildec.Body.Encode
import Cildec.Lib.Narrow

/-!
# Data sections by their place in the bytes (`src/body.rs`)

A section is its four header bytes and the body they declare. `sectionHeader?` reads the
header off the bytes at an offset, `bodySize` is how much of the body permissive mode
takes, and `LegalClauses` says that every clause in it can be classified.

* `section_ok_iff`: which sections permissive mode reads;
* `section_ok`: where it stands afterwards, and that a section that leaves no diagnostic
  declares its size exactly.
-/

namespace Cildec

open Wire

/-! ## The header -/

/-- The header of a data section: where it starts, its `Kind` and its `DataSize`. -/
structure SectionHeader where
  start : Nat
  kind : UInt8
  dataSize : Nat
  deriving DecidableEq, Repr

namespace SectionHeader

/-- The section is an exception table. -/
def isEh (h : SectionHeader) : Bool := h.kind &&& 0x01 != 0

def fat (h : SectionHeader) : Bool := h.kind &&& 0x40 != 0

/-- Another section follows. -/
def more (h : SectionHeader) : Bool := h.kind &&& 0x80 != 0

/-- Where the bytes after the header start. -/
def bodyStart (h : SectionHeader) : Nat := h.start + 4

end SectionHeader

/-- The next multiple of four. -/
def alignUp (n : Nat) : Nat := n + (4 - n % 4) % 4

/-- `DataSize` from the three bytes after `Kind`. -/
def dataSizeOf (fat : Bool) (b0 b1 b2 : UInt8) : Nat :=
  if fat then leNat [b0, b1, b2] else b0.toNat

/-- The header of the section that starts at `n`, after the padding. -/
def sectionHeader? (bytes : List UInt8) (n : Nat) : Option SectionHeader :=
  match bytes.drop (alignUp n) with
  | kind :: b0 :: b1 :: b2 :: _ =>
      some ⟨alignUp n, kind, dataSizeOf (kind &&& 0x40 != 0) b0 b1 b2⟩
  | _ => none

theorem sectionHeader?_eq {bytes tl : List UInt8} {n : Nat} {kind b0 b1 b2 : UInt8}
    (h : bytes.drop (alignUp n) = kind :: b0 :: b1 :: b2 :: tl) :
    sectionHeader? bytes n =
      some ⟨alignUp n, kind, dataSizeOf (kind &&& 0x40 != 0) b0 b1 b2⟩ := by
  rw [sectionHeader?, h]

theorem sectionHeader?_inv {bytes : List UInt8} {n : Nat} {h : SectionHeader}
    (hheader : sectionHeader? bytes n = some h) :
    ∃ b0 b1 b2 tl, bytes.drop (alignUp n) = h.kind :: b0 :: b1 :: b2 :: tl ∧
      h.start = alignUp n ∧ h.dataSize = dataSizeOf h.fat b0 b1 b2 := by
  unfold sectionHeader? at hheader
  split at hheader
  · rename_i kind b0 b1 b2 tl hdrop
    cases hheader
    exact ⟨b0, b1, b2, tl, hdrop, rfl, rfl⟩
  · cases hheader

/-- The header lies in the bytes. -/
theorem bodyStart_le {bytes : List UInt8} {n : Nat} {h : SectionHeader}
    (hheader : sectionHeader? bytes n = some h) : n ≤ h.start ∧ h.bodyStart ≤ bytes.length := by
  obtain ⟨b0, b1, b2, tl, hdrop, hstart, _⟩ := sectionHeader?_inv hheader
  have hlen := congrArg List.length hdrop
  simp only [List.length_drop, List.length_cons] at hlen
  refine ⟨?_, ?_⟩
  · rw [hstart, alignUp]
    omega
  · rw [SectionHeader.bodyStart, hstart]
    omega

/-- The part of `readSection` that reads the header. -/
def readSectionHeader : Read SectionHeader := do
  Reader.alignTo 0 4
  let r ← get
  let kind ← Reader.u8
  let dataSize ← readDataSize (kind &&& 0x40 != 0)
  return ⟨r.position, kind, dataSize⟩

/-- The part of `readSection` that reads the body. -/
def readSectionBody (strictness : Strictness) (h : SectionHeader) : Read (Sections × Bool) := do
  let r ← get
  let (bodySize, sizeDiagnostics) ←
    Wire.ofExcept (sectionBodySize strictness h.isEh h.fat h.dataSize r.remaining h.start)
  let (bodySize, clampDiagnostics) ←
    Wire.ofExcept (clampBodySize strictness h.dataSize bodySize r.remaining h.start)
  let body ← Reader.take bodySize
  let decoded ← Wire.ofExcept (decodeSection strictness h.kind h.fat h.start body)
  return (Sections.append ⟨sizeDiagnostics ++ clampDiagnostics, [], []⟩ decoded, h.more)

/-- A section is its header and then its body. -/
theorem readSection_eq (strictness : Strictness) :
    readSection strictness = readSectionHeader >>= readSectionBody strictness := by
  simp only [readSection, readSectionHeader, bind_assoc, pure_bind]
  rfl

theorem reads_dataSize (fat : Bool) : Reads (readDataSize fat) (fun bs n =>
    ∃ b0 b1 b2, bs = [b0, b1, b2] ∧ n = dataSizeOf fat b0 b1 b2) := by
  cases fat with
  | true =>
      refine ((Reader.reads_take 3).map leNat).mono ?_
      rintro bs n ⟨b, rfl, rfl, hlen⟩
      obtain ⟨b0, b1, b2, rfl⟩ := List.length_eq_three.mp hlen
      exact ⟨b0, b1, b2, rfl, rfl⟩
  | false =>
      refine (Reader.reads_u8.bind fun size =>
        Reader.reads_u16.map fun _ => size.toNat).mono ?_
      rintro bs n ⟨size, cs, ds, rfl, rfl, v, rfl, rfl⟩
      exact ⟨size, _, _, rfl, rfl⟩

theorem totalOn_dataSize (fat : Bool) : TotalOn 3 (readDataSize fat) := by
  cases fat with
  | true => exact (Reader.totalOn_take 3).map leNat
  | false => exact Reader.totalOn_u8.bind fun size => Reader.totalOn_u16.map fun _ => size.toNat

/-- A header that is read stands in the bytes. -/
theorem readSectionHeader_ok {r r' : Reader} {h : SectionHeader}
    (hrun : readSectionHeader.run r = .ok h r') :
    sectionHeader? r.data r.pos = some h ∧ r'.data = r.data ∧ r'.pos = h.bodyStart := by
  obtain ⟨_, r1, hskip, hrun⟩ := run_bind_ok_iff.mp hrun
  obtain ⟨_, _, hget, hrun⟩ := run_bind_ok_iff.mp hrun
  cases hget
  obtain ⟨kind, r2, hkind, hrun⟩ := run_bind_ok_iff.mp hrun
  obtain ⟨dataSize, r3, hsize, hrun⟩ := run_bind_ok_iff.mp hrun
  cases hrun
  have hskip' : (Reader.skip (wrappingNeg (r.pos - 0) &&& 3)).run r = .ok () r1 := hskip
  rw [Nat.sub_zero, Reader.wrappingNeg_and_three] at hskip'
  obtain ⟨pad, hpad, rfl, hlen⟩ := Reader.reads_skip _ _ _ _ hskip'
  obtain ⟨_, hk, rfl, rfl⟩ := Reader.reads_u8 _ _ _ hkind
  obtain ⟨_, hd, rfl, b0, b1, b2, rfl, rfl⟩ := reads_dataSize _ _ _ _ hsize
  have hpos : (Wire.advance pad.length r).pos = alignUp r.pos := by
    rw [Reader.pos_advance r rfl hpad, hlen, alignUp]
  obtain ⟨tl, hdrop⟩ : ∃ tl, r.data.drop (alignUp r.pos) = kind :: b0 :: b1 :: b2 :: tl := by
    rw [← hpos]
    exact ⟨_, hk.trans (congrArg (kind :: ·) hd)⟩
  refine ⟨?_, rfl, ?_⟩
  · rw [sectionHeader?_eq hdrop, ← hpos]
    rfl
  · rw [Reader.pos_advance _ (Reader.pos_advance _ rfl hk) hd]
    rfl

/-- A header that stands in the bytes is read. -/
theorem readSectionHeader_run {r : Reader} {h : SectionHeader}
    (hheader : sectionHeader? r.data r.pos = some h) :
    ∃ r', readSectionHeader.run r = .ok h r' := by
  obtain ⟨b0, b1, b2, tl, hdrop, _, _⟩ := sectionHeader?_inv hheader
  have hlen := congrArg List.length hdrop
  simp only [List.length_drop, List.length_cons] at hlen
  have hskip := Reader.skip_run (n := (4 - r.pos % 4) % 4) (r := r) (by
    show _ ≤ r.data.length - r.pos
    rw [alignUp] at hlen
    omega)
  have halign : (Reader.alignTo 0 4).run r = .ok () (r.advance ((4 - r.pos % 4) % 4)) := by
    rw [← hskip, ← Reader.wrappingNeg_and_three]
    rfl
  have hpos : (r.advance ((4 - r.pos % 4) % 4)).pos = alignUp r.pos := by
    rw [Reader.advance, alignUp]
    exact Nat.min_eq_left (by rw [alignUp] at hlen; omega)
  have hrest : (r.advance ((4 - r.pos % 4) % 4)).rest = h.kind :: b0 :: b1 :: b2 :: tl := by
    rw [Reader.rest, hpos]
    exact hdrop
  have htotal : TotalOn 4 (Reader.u8 >>= fun kind => readDataSize (kind &&& 0x40 != 0) >>=
      fun dataSize => Pure.pure (⟨(r.advance ((4 - r.pos % 4) % 4)).position, kind, dataSize⟩ :
        SectionHeader)) :=
    Reader.totalOn_u8.bind fun kind => (totalOn_dataSize _).map _
  obtain ⟨h', hrun⟩ := htotal (r.advance ((4 - r.pos % 4) % 4)) (by
    rw [Reader.cursor_rest, hrest]
    simp)
  have hrun' : readSectionHeader.run r = .ok h' _ := (run_bind_of_ok halign).trans hrun
  have hsame := (readSectionHeader_ok hrun').1
  rw [hheader] at hsame
  cases hsame
  exact ⟨_, hrun'⟩

/-! ## The body -/

/-- The low three bits of a flags byte name a kind of handler. -/
def legalFlags (flags : UInt8) : Prop :=
  flags.toNat % 8 = 0 ∨ flags.toNat % 8 = 1 ∨ flags.toNat % 8 = 2 ∨ flags.toNat % 8 = 4

namespace SectionHeader

/-- How much of the `available` bytes permissive mode takes for the section body. -/
def bodySize (h : SectionHeader) (available : Nat) : Nat :=
  if h.isEh = true ∧ (h.dataSize - 4) % clauseSize h.fat ≠ 0 ∧
      h.dataSize % clauseSize h.fat = 0 ∧ h.dataSize ≤ available then h.dataSize
  else min (h.dataSize - 4) available

/-- Where the section ends in `length` bytes. -/
def next (h : SectionHeader) (length : Nat) : Nat :=
  h.bodyStart + h.bodySize (length - h.bodyStart)

/-- `DataSize` fits the bytes and, in an exception table, counts whole clauses. -/
structure Conforming (h : SectionHeader) (length : Nat) : Prop where
  fits : h.dataSize - 4 ≤ length - h.bodyStart
  whole : h.isEh = true → (h.dataSize - 4) % clauseSize h.fat = 0

/-- Every clause of an exception table can be classified. -/
def LegalClauses (h : SectionHeader) (bytes : List UInt8) : Prop :=
  h.isEh = true → ∀ i < h.bodySize (bytes.length - h.bodyStart) / clauseSize h.fat,
    legalFlags (bytes.getD (h.bodyStart + i * clauseSize h.fat) 0)

theorem bodySize_le (h : SectionHeader) (available : Nat) : h.bodySize available ≤ available := by
  unfold bodySize
  split
  · rename_i hvb
    exact hvb.2.2.2
  · exact Nat.min_le_right _ _

/-- The size of a conforming section is its `DataSize`, less the header. -/
theorem Conforming.bodySize_eq {h : SectionHeader} {length : Nat} (hc : h.Conforming length) :
    h.bodySize (length - h.bodyStart) = h.dataSize - 4 := by
  rw [bodySize, if_neg, Nat.min_eq_left hc.fits]
  rintro ⟨heh, hpartial, _⟩
  exact hpartial (hc.whole heh)

end SectionHeader

/-- The size permissive mode settles on, in the two steps of the source. -/
theorem permissive_sizes (h : SectionHeader) (available : Nat) :
    ∃ size ds ds', sectionBodySize .permissive h.isEh h.fat h.dataSize available h.start =
        .ok (size, ds) ∧
      clampBodySize .permissive h.dataSize size available h.start =
        .ok (h.bodySize available, ds') ∧
      (ds ++ ds' = [] → h.bodySize available = h.dataSize - 4 ∧ h.dataSize - 4 ≤ available) := by
  unfold sectionBodySize clampBodySize SectionHeader.bodySize
  by_cases hvb : h.isEh = true ∧ (h.dataSize - 4) % clauseSize h.fat ≠ 0 ∧
      h.dataSize % clauseSize h.fat = 0 ∧ h.dataSize ≤ available
  · refine ⟨h.dataSize, [.new .ehSectionSize h.start h.dataSize], [], if_pos hvb, ?_, ?_⟩
    · rw [if_neg (Nat.not_lt.mpr hvb.2.2.2), if_pos hvb]
    · intro hds
      cases hds
  · by_cases hlt : available < h.dataSize - 4
    · refine ⟨h.dataSize - 4, [], [.new .ehSectionSize h.start h.dataSize], if_neg hvb, ?_, ?_⟩
      · rw [if_pos hlt, if_neg hvb, Nat.min_eq_right (Nat.le_of_lt hlt)]
        rfl
      · intro hds
        cases hds
    · have hle := Nat.not_lt.mp hlt
      refine ⟨h.dataSize - 4, [], [], if_neg hvb, ?_, ?_⟩
      · rw [if_neg hlt, if_neg hvb, Nat.min_eq_left hle]
      · intro _
        rw [if_neg hvb, Nat.min_eq_left hle]
        exact ⟨rfl, hle⟩

/-! ## Clauses -/

theorem totalOn_clause (fat : Bool) :
    TotalOn (clauseSize fat) (if fat then readFatClause else readSmallClause) := by
  have h2 := Reader.totalOn_u16
  have h4 := Reader.totalOn_u32
  cases fat with
  | true =>
      exact h4.bind fun _ => h4.bind fun _ => h4.bind fun _ => h4.bind fun _ =>
        h4.bind fun _ => h4.map _
  | false =>
      exact h2.bind fun _ => h2.bind fun _ => Reader.totalOn_u8.bind fun _ => h2.bind fun _ =>
        Reader.totalOn_u8.bind fun _ => h4.map _

/-- The first byte of a clause holds the low bits of its flags. -/
theorem reads_clause (fat : Bool) :
    Reads (if fat then readFatClause else readSmallClause) (fun bs clause =>
      ∃ b tl, bs = b :: tl ∧ clause.flags.toNat % 8 = b.toNat % 8) := by
  have hlow (n : Nat) : (UInt8.ofNat n).toNat % 8 = n % 8 := by
    rw [UInt8.toNat_ofNat']
    omega
  cases fat with
  | true =>
      refine (Reader.reads_u32.bind fun flags => Reader.reads_u32.bind fun tryOffset =>
        Reader.reads_u32.bind fun tryLength => Reader.reads_u32.bind fun handlerOffset =>
        Reader.reads_u32.bind fun handlerLength => Reader.reads_u32.map fun extra =>
          ({ flags, tryOffset, tryLength, handlerOffset, handlerLength, extra } : Clause)).mono ?_
      rintro bs clause ⟨flags, _, ds, rfl, rfl, _, _, _, -, -, _, _, _, -, -, _, _, _, -, -,
        _, _, _, -, -, _, rfl, -⟩
      exact ⟨_, _, rfl, (hlow _).symm⟩
  | false =>
      refine (Reader.reads_u16.bind fun flags => Reader.reads_u16.bind fun tryOffset =>
        Reader.reads_u8.bind fun tryLength => Reader.reads_u16.bind fun handlerOffset =>
        Reader.reads_u8.bind fun handlerLength => Reader.reads_u32.map fun extra =>
          ({ flags := flags.toUInt32
             tryOffset := tryOffset.toUInt32
             tryLength := tryLength.toUInt32
             handlerOffset := handlerOffset.toUInt32
             handlerLength := handlerLength.toUInt32
             extra } : Clause)).mono ?_
      rintro bs clause ⟨flags, _, ds, rfl, rfl, _, _, _, -, -, _, _, _, -, -, _, _, _, -, -,
        _, _, _, -, -, _, rfl, -⟩
      exact ⟨_, _, rfl, (hlow _).symm⟩

theorem legal_iff (clause : Clause) :
    clause.Legal ↔ clause.flags.toNat % 8 = 0 ∨ clause.flags.toNat % 8 = 1 ∨
      clause.flags.toNat % 8 = 2 ∨ clause.flags.toNat % 8 = 4 := by
  have hlow (v : UInt32) : clause.flags &&& 7 = v ↔ clause.flags.toNat % 8 = v.toNat := by
    rw [← UInt32.toNat_inj, UInt32.toNat_and, show (7 : UInt32).toNat = 2 ^ 3 - 1 from rfl,
      Nat.and_two_pow_sub_one_eq_mod]
  rw [Clause.Legal, hlow, hlow, hlow, hlow]
  rfl

/-- Which clauses are classified. -/
theorem exists_kind_iff (clause : Clause) (offset : Nat) :
    (∃ kind, clause.kind offset = .ok kind) ↔ clause.Legal := by
  constructor
  · rintro ⟨kind, hkind⟩
    unfold Clause.kind at hkind
    simp only at hkind
    split at hkind
    · exact .inl ‹_›
    · split at hkind
      · exact .inr (.inl ‹_›)
      · split at hkind
        · exact .inr (.inr (.inl ‹_›))
        · split at hkind
          · exact .inr (.inr (.inr ‹_›))
          · cases hkind
  · intro hlegal
    exact ⟨_, Clause.kind_of_legal hlegal offset⟩

/-- Which chunks of the right size are clauses. -/
theorem exists_clause_iff {chunk : List UInt8} {fat : Bool} (hlen : chunk.length = clauseSize fat)
    (offset : Nat) :
    (∃ handler, readClause chunk fat offset = .ok handler) ↔ legalFlags (chunk.getD 0 0) := by
  obtain ⟨clause, hrun⟩ := totalOn_clause fat (Reader.new chunk offset clauseContext) (by
    rw [Reader.cursor_rest, Reader.rest_new, hlen])
  obtain ⟨bs, hrest, _, b, tl, rfl, hflags⟩ := reads_clause fat _ _ _ hrun
  rw [Reader.cursor_rest, Reader.rest_new] at hrest
  have hfirst : chunk.getD 0 0 = b := by
    rw [hrest]
    rfl
  rw [hfirst, legalFlags, ← hflags, ← legal_iff, ← exists_kind_iff clause offset, readClause, hrun]
  constructor
  · rintro ⟨handler, hhandler⟩
    cases hkind : clause.kind offset with
    | error e =>
        simp only [hkind] at hhandler
        cases hhandler
    | ok kind => exact ⟨kind, rfl⟩
  · rintro ⟨kind, hkind⟩
    exact ⟨clause.toHandler kind, by simp only [hkind]⟩

theorem clauseSize_pos (fat : Bool) : 0 < clauseSize fat := by cases fat <;> decide

/-- A whole clause starts inside the bytes. -/
theorem clauseStart_lt {fat : Bool} {i size : Nat} (hi : i < size / clauseSize fat) :
    i * clauseSize fat < size := by
  have hend := Nat.mul_le_mul_right (clauseSize fat) hi
  have hpos := clauseSize_pos fat
  have hle := Nat.div_mul_le_self size (clauseSize fat)
  rw [Nat.succ_mul] at hend
  omega

/-- Which exception tables are read. -/
theorem exists_clauses_iff (body : List UInt8) (fat : Bool) (sectionStart : Nat) :
    (∃ handlers, readClauses body fat sectionStart = .ok handlers) ↔
      ∀ i < body.length / clauseSize fat, legalFlags (body.getD (i * clauseSize fat) 0) := by
  rw [readClauses, exists_mapM_ok_iff]
  simp only [List.mem_range]
  refine forall_congr' fun i => imp_congr_right fun hi => ?_
  have hsize := clauseSize_pos fat
  have hend : (i + 1) * clauseSize fat ≤ body.length :=
    (Nat.mul_le_mul_right _ hi).trans (Nat.div_mul_le_self _ _)
  rw [Nat.succ_mul] at hend
  have hlen : ((body.drop (i * clauseSize fat)).take (clauseSize fat)).length = clauseSize fat := by
    rw [List.length_take, List.length_drop]
    omega
  have hfirst : ((body.drop (i * clauseSize fat)).take (clauseSize fat)).getD 0 0 =
      body.getD (i * clauseSize fat) 0 := by
    simp only [List.getD_eq_getElem?_getD, List.getElem?_take_of_lt hsize, List.getElem?_drop,
      Nat.add_zero]
  rw [exists_clause_iff hlen, hfirst]

/-! ## Whole sections -/

/-- What permissive mode makes of the bytes of a section body. -/
theorem decodeSection_permissive (h : SectionHeader) (body : List UInt8) :
    ((∃ decoded, decodeSection .permissive h.kind h.fat h.start body = .ok decoded) ↔
      (h.isEh = true → ∀ i < body.length / clauseSize h.fat,
        legalFlags (body.getD (i * clauseSize h.fat) 0))) ∧
    ∀ decoded, decodeSection .permissive h.kind h.fat h.start body = .ok decoded →
      decoded.diagnostics = [] → h.isEh = true → body.length % clauseSize h.fat = 0 := by
  have hcheck : ∃ ds, checkWholeClauses .permissive h.fat body.length h.start = .ok ds ∧
      (ds = [] → body.length % clauseSize h.fat = 0) := by
    unfold checkWholeClauses
    by_cases hpartial : body.length % clauseSize h.fat ≠ 0
    · refine ⟨[.new .ehSectionSize h.start body.length], if_pos hpartial, ?_⟩
      intro hds
      cases hds
    · refine ⟨[], if_neg hpartial, ?_⟩
      intro _
      exact Decidable.not_not.mp hpartial
  obtain ⟨ds, hds, hwhole⟩ := hcheck
  unfold decodeSection
  cases heh : h.kind &&& 0x01 != 0 with
  | false =>
      have hisEh : h.isEh = false := heh
      rw [hisEh]
      refine ⟨⟨?_, ?_⟩, ?_⟩
      · intro _ hfalse
        cases hfalse
      · intro _
        exact ⟨_, rfl⟩
      · intro _ _ _ hfalse
        cases hfalse
  | true =>
      have hisEh : h.isEh = true := heh
      have hclauses := exists_clauses_iff body h.fat h.start
      simp only [if_true, hds, hisEh, true_imp_iff]
      rw [← hclauses]
      refine ⟨⟨?_, ?_⟩, ?_⟩
      · rintro ⟨decoded, hdecoded⟩
        cases hread : readClauses body h.fat h.start with
        | error e =>
            rw [hread] at hdecoded
            cases hdecoded
        | ok handlers => exact ⟨handlers, rfl⟩
      · rintro ⟨handlers, hread⟩
        rw [hread]
        exact ⟨_, rfl⟩
      · intro decoded hdecoded hquiet
        cases hread : readClauses body h.fat h.start with
        | error e =>
            rw [hread] at hdecoded
            cases hdecoded
        | ok handlers =>
            rw [hread] at hdecoded
            cases hdecoded
            exact hwhole hquiet

/-- The section body, once its size is settled. -/
theorem readSectionBody_run {h : SectionHeader} {r : Reader} (hpos : r.pos = h.bodyStart) :
    ∃ ds, (ds = [] → h.bodySize (r.data.length - h.bodyStart) = h.dataSize - 4 ∧
        h.dataSize - 4 ≤ r.data.length - h.bodyStart) ∧
      (readSectionBody .permissive h).run r =
        (do
          let decoded ← Wire.ofExcept (decodeSection .permissive h.kind h.fat h.start
            (r.rest.take (h.bodySize (r.data.length - h.bodyStart))))
          return (Sections.append ⟨ds, [], []⟩ decoded, h.more) :
            Read (Sections × Bool)).run (r.advance (h.bodySize (r.data.length - h.bodyStart))) := by
  have hremaining : r.remaining = r.data.length - h.bodyStart := by
    rw [Reader.remaining, hpos]
  obtain ⟨size, ds, ds', hsize, hclamp, hfits⟩ :=
    permissive_sizes h (r.data.length - h.bodyStart)
  refine ⟨ds ++ ds', hfits, ?_⟩
  have htake := Reader.take_run (r := r) (n := h.bodySize (r.data.length - h.bodyStart)) (by
    rw [hremaining]
    exact h.bodySize_le _)
  have hget : (get : Read Reader).run r = .ok r r := rfl
  rw [readSectionBody, run_bind_of_ok hget, hremaining, hsize]
  have hfirst : (Wire.ofExcept (.ok (size, ds)) : Read (Nat × List Diagnostic)).run r =
      .ok (size, ds) r := rfl
  have hsecond : (Wire.ofExcept (clampBodySize .permissive h.dataSize size
      (r.data.length - h.bodyStart) h.start) : Read (Nat × List Diagnostic)).run r =
      .ok (h.bodySize (r.data.length - h.bodyStart), ds') r := by
    rw [hclamp]
    rfl
  rw [run_bind_of_ok hfirst, run_bind_of_ok hsecond, run_bind_of_ok htake]

/-- The bytes of the section body are those after the header. -/
theorem sectionBody_getD {h : SectionHeader} {r : Reader} (hpos : r.pos = h.bodyStart) {size i : Nat}
    (hi : i < size) : (r.rest.take size).getD i 0 = r.data.getD (h.bodyStart + i) 0 := by
  simp only [List.getD_eq_getElem?_getD, List.getElem?_take_of_lt hi, Reader.rest,
    List.getElem?_drop, hpos]

theorem sectionBody_length {h : SectionHeader} {r : Reader} (hpos : r.pos = h.bodyStart) :
    (r.rest.take (h.bodySize (r.data.length - h.bodyStart))).length =
      h.bodySize (r.data.length - h.bodyStart) := by
  have hle := h.bodySize_le (r.data.length - h.bodyStart)
  rw [List.length_take, Reader.rest_length, Reader.remaining, hpos]
  omega

/-- A section that permissive mode reads: its header is in the bytes, and the reader stands
at its end. -/
theorem section_ok {r r' : Reader} {decoded : Sections} {more : Bool}
    (hrun : (readSection .permissive).run r = .ok (decoded, more) r') :
    ∃ h, sectionHeader? r.data r.pos = some h ∧ more = h.more ∧ h.LegalClauses r.data ∧
      r'.data = r.data ∧ r'.pos = h.next r.data.length ∧
      (decoded.diagnostics = [] → h.Conforming r.data.length) := by
  rw [readSection_eq] at hrun
  obtain ⟨h, r1, hheader, hbody⟩ := run_bind_ok_iff.mp hrun
  obtain ⟨hh, hdata, hpos⟩ := readSectionHeader_ok hheader
  obtain ⟨ds, hfits, hrun1⟩ := readSectionBody_run hpos
  rw [hrun1] at hbody
  obtain ⟨content, r2, hcontent, hbody⟩ := run_bind_ok_iff.mp hbody
  cases hbody
  obtain ⟨hiff, hwhole⟩ := decodeSection_permissive h
    (r1.rest.take (h.bodySize (r1.data.length - h.bodyStart)))
  rw [sectionBody_length hpos] at hiff hwhole
  cases hdec : decodeSection .permissive h.kind h.fat h.start
      (r1.rest.take (h.bodySize (r1.data.length - h.bodyStart))) with
  | error e =>
      rw [hdec] at hcontent
      cases hcontent
  | ok d =>
      rw [hdec] at hcontent
      cases hcontent
      rw [← hdata]
      refine ⟨h, hdata ▸ hh, rfl, ?_, rfl, ?_, ?_⟩
      · intro heh i hi
        rw [← sectionBody_getD hpos (clauseStart_lt hi)]
        exact hiff.mp ⟨_, hdec⟩ heh i hi
      · have hle := h.bodySize_le (r1.data.length - h.bodyStart)
        rw [SectionHeader.next, ← hpos]
        exact Reader.advance_pos (by rw [Reader.remaining, hpos]; exact hle)
      · intro hquiet
        obtain ⟨hds, hd⟩ := List.append_eq_nil_iff.mp hquiet
        obtain ⟨hsize, hle⟩ := hfits hds
        refine ⟨hle, ?_⟩
        intro heh
        rw [← hsize]
        exact hwhole _ hdec hd heh

/-- Which sections permissive mode reads. -/
theorem section_ok_iff (r : Reader) :
    (∃ a r', (readSection .permissive).run r = .ok a r') ↔
      ∃ h, sectionHeader? r.data r.pos = some h ∧ h.LegalClauses r.data := by
  constructor
  · rintro ⟨⟨decoded, more⟩, r', hrun⟩
    obtain ⟨h, hheader, _, hlegal, _⟩ := section_ok hrun
    exact ⟨h, hheader, hlegal⟩
  · rintro ⟨h, hheader, hlegal⟩
    obtain ⟨r1, hrun1⟩ := readSectionHeader_run hheader
    obtain ⟨_, hdata, hpos⟩ := readSectionHeader_ok hrun1
    obtain ⟨ds, _, hbody⟩ := readSectionBody_run hpos
    obtain ⟨hiff, _⟩ := decodeSection_permissive h
      (r1.rest.take (h.bodySize (r1.data.length - h.bodyStart)))
    rw [sectionBody_length hpos] at hiff
    obtain ⟨d, hd⟩ := hiff.mpr (by
      intro heh i hi
      rw [sectionBody_getD hpos (clauseStart_lt hi), hdata]
      rw [hdata] at hi
      exact hlegal heh i hi)
    rw [readSection_eq, run_bind_of_ok hrun1, hbody, hd]
    exact ⟨_, _, rfl⟩

end Cildec
