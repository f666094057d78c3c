import Cildec.Body.Strict

/-!
# Exception tables whose size omits their header (`src/body.rs`)

Some compilers write `DataSize` without the four bytes of the section header. `MisizedTable`
is such a table, `MisizedBody` a body whose chain of sections ends in one.

* `MisizedTable.decodes`: permissive mode reads the table in full, with one diagnostic;
* `sectionBodySize_conforming_or`: the sizes it reads that way;
* `misized_recovered`: both, for whole bodies, and that strict mode rejects them.
-/

namespace Cildec

open Wire

/-! ## The table -/

/-- An exception table with at least one clause whose `DataSize` counts the clauses only. -/
structure MisizedTable where
  fat : Bool
  kindBits : UInt8
  reserved : UInt16
  clauses : List Clause
  kindBits_free : kindBits &&& 0xC1 = 0
  nonempty : clauses ≠ []
  size_fits : clauses.length * clauseSize fat < if fat then 2 ^ 24 else 2 ^ 8
  clauses_ok : ∀ c ∈ clauses, c.Legal ∧ (fat = false → c.Small)

namespace MisizedTable

/-- The `Kind` byte of a last section. -/
def kind (t : MisizedTable) : UInt8 := t.kindBits ||| 0x01 ||| (if t.fat then 0x40 else 0)

/-- `DataSize`: the clauses, without the section header. -/
def dataSize (t : MisizedTable) : Nat := t.clauses.length * clauseSize t.fat

def payload (t : MisizedTable) : List UInt8 := t.clauses.flatMap (Clause.enc t.fat)

/-- The size field of the section header. -/
def sizeField (t : MisizedTable) : List UInt8 :=
  if t.fat then leBytes 3 t.dataSize else [UInt8.ofNat t.dataSize] ++ leBytes 2 t.reserved.toNat

def enc (t : MisizedTable) : List UInt8 := [t.kind] ++ (t.sizeField ++ t.payload)

/-- What the table leaves with a reader that finds it at `start`. -/
def decoded (t : MisizedTable) (start : Nat) : Sections :=
  ⟨[.new .ehSectionSize start t.dataSize], t.clauses.map Clause.handler, []⟩

theorem kind_bits (t : MisizedTable) :
    (t.kind &&& 0x01 != 0) = true ∧ (t.kind &&& 0x40 != 0) = t.fat ∧
      (t.kind &&& 0x80 != 0) = false := by
  obtain ⟨heh, hfat, hmore⟩ := DataSection.kind_bits t.kindBits t.kindBits_free true t.fat false
  simp only [if_true, Bool.false_eq_true, if_false, UInt8.or_zero] at heh hfat hmore
  rw [kind, heh, hfat, hmore]
  cases t.fat <;> exact ⟨rfl, rfl, rfl⟩

theorem payload_length (t : MisizedTable) : t.payload.length = t.dataSize :=
  length_flatMap_const fun c _ => c.enc_length t.fat

/-- Without its header, the size of the table leaves a partial clause. -/
theorem partial_clause (t : MisizedTable) :
    (t.dataSize - 4) % clauseSize t.fat ≠ 0 ∧ t.dataSize % clauseSize t.fat = 0 := by
  have hpos := List.length_pos_iff.mpr t.nonempty
  unfold dataSize clauseSize
  cases t.fat with
  | true => simp only [if_true]; omega
  | false => simp only [Bool.false_eq_true, if_false]; omega

theorem decodeSection_eq (t : MisizedTable) (start : Nat) :
    decodeSection .permissive t.kind t.fat start t.payload =
      .ok ⟨[], t.clauses.map Clause.handler, []⟩ := by
  have hwhole : checkWholeClauses .permissive t.fat t.payload.length start = .ok [] := by
    rw [checkWholeClauses, t.payload_length, if_neg (Decidable.not_not.mpr t.partial_clause.2)]
  have hread : readClauses t.payload t.fat start = .ok (t.clauses.map Clause.handler) :=
    readClauses_enc t.clauses_ok start
  simp only [decodeSection, t.kind_bits.1, if_true, hwhole, hread]
  rfl

/-- The table is read in full, after the padding that aligns it. -/
theorem decodes (t : MisizedTable) (n : Nat) (tl : List UInt8) :
    Decodes (fun r => r.pos = n) (readSection .permissive) (Reader.padding n ++ t.enc)
      (t.decoded (n + (Reader.padding n).length), false) tl := by
  obtain ⟨heh, hfat, hmore⟩ := t.kind_bits
  refine Reader.decodes_bind_pos (Reader.decodes_alignTo n _) rfl ?_
  refine Decodes.get_bind fun r hpos _ => ?_
  have hposition : r.position = n + (Reader.padding n).length := hpos
  refine Decodes.bind (Q := fun _ => True) (Reader.decodes_u8 _ t.kind _)
    (fun _ _ _ => trivial) ?_
  simp only [hfat, heh, hmore, hposition]
  refine Decodes.bind (Q := fun _ => True) (decodes_sizeField t.size_fits t.reserved _ _)
    (fun _ _ _ => trivial) ?_
  refine Decodes.get_bind fun r' _ hrest => ?_
  have hremaining := Reader.remaining_of_rest hrest
  rw [t.payload_length] at hremaining
  -- with its four bytes taken off the size leaves a partial clause, as it stands it does not
  have hsize : sectionBodySize .permissive true t.fat t.dataSize r'.remaining
      (n + (Reader.padding n).length) =
      .ok (t.dataSize, [.new .ehSectionSize (n + (Reader.padding n).length) t.dataSize]) := by
    rw [sectionBodySize, if_pos ⟨rfl, t.partial_clause.1, t.partial_clause.2, by omega⟩]
    rfl
  refine Decodes.ofExcept_bind hsize ?_
  -- all clauses are there, so nothing is clamped
  have hclamp : clampBodySize .permissive t.dataSize t.dataSize r'.remaining
      (n + (Reader.padding n).length) = .ok (t.dataSize, []) := by
    rw [clampBodySize, if_neg (by omega)]
  refine Decodes.ofExcept_bind hclamp ?_
  have htake := Reader.decodes_take (fun _ => True) t.payload tl
  rw [t.payload_length] at htake
  refine Decodes.bind_nil (Q := fun _ => True) (htake.weaken fun _ _ => trivial)
    (fun _ _ _ => trivial) ?_
  exact Decodes.ofExcept_bind (t.decodeSection_eq _) (Decodes.pure _ _ tl)

end MisizedTable

/-! ## The chain that ends in it -/

/-- The sections before the table, each aligned and with `MoreSects`, and then the table. -/
def encMisized (t : MisizedTable) : Nat → List DataSection → List UInt8
  | n, [] => Reader.padding n ++ t.enc
  | n, s :: ss =>
      let bytes := Reader.padding n ++ s.enc true
      bytes ++ encMisized t (n + bytes.length) ss

/-- Where the table starts. -/
def misizedStart : Nat → List DataSection → Nat
  | n, [] => n + (Reader.padding n).length
  | n, s :: ss => misizedStart (n + (Reader.padding n ++ s.enc true).length) ss

/-- What the sections before the table leave with a reader. -/
def decodedBefore : List DataSection → Sections
  | [] => ⟨[], [], []⟩
  | s :: ss => (s.decoded true).append (decodedBefore ss)

theorem encMisized_ne_nil (t : MisizedTable) (n : Nat) (before : List DataSection) :
    encMisized t n before ≠ [] := by
  cases before with
  | nil => simp [encMisized, MisizedTable.enc]
  | cons s ss => simp [encMisized, DataSection.enc]

theorem decodedBefore_diagnostics (before : List DataSection) :
    (decodedBefore before).diagnostics = [] := by
  induction before with
  | nil => rfl
  | cons s ss ih =>
      rw [decodedBefore, Sections.append, s.decoded_diagnostics, ih]
      rfl

/-- The chain is read to its end: by induction on the sections before the table. -/
theorem decodes_misized (t : MisizedTable) (before : List DataSection) (sections : Sections)
    (n : Nat) (tl : List UInt8) :
    Decodes (fun r => r.pos = n) (parseSections .permissive sections) (encMisized t n before)
      (sections.append ((decodedBefore before).append (t.decoded (misizedStart n before)))) tl := by
  induction before generalizing sections n with
  | nil =>
      intro r hpos hrest
      have hrun := t.decodes n tl r hpos hrest
      rw [parseSections_run, hrun]
      rfl
  | cons s ss ih =>
      intro r hpos hrest
      rw [encMisized, List.append_assoc] at hrest
      have hrun := s.decodes_section .permissive true n _ r hpos hrest
      have hafter := rest_advance_of_append hrest
      -- the table still follows, so the chain goes on
      have hmore := Reader.isEmpty_of_rest hafter
        (List.append_ne_nil_of_left_ne_nil (encMisized_ne_nil t _ ss) tl)
      have htail := ih (sections.append (s.decoded true)) _ _ (Reader.pos_advance r hpos hrest)
        hafter
      rw [parseSections_run, hrun]
      simp only [Bool.not_true, Bool.false_eq_true, if_false, hmore, htail]
      rw [Cursor.advance_advance, ← List.length_append, decodedBefore, Sections.append_assoc,
        Sections.append_assoc]
      rfl

/-! ## Bodies -/

/-- A fat body whose last section is a mis-sized exception table. -/
structure MisizedBody where
  flags : FatFlags
  maxStack : UInt16
  localVarSigTok : UInt32
  code : List UInt8
  before : List DataSection
  table : MisizedTable
  flags_fat : flags.bits.toNat < 2 ^ 12 ∧ flags.bits.toNat % 4 = 3
  code_short : code.length < 2 ^ 32
  more : flags.moreSects = true

namespace MisizedBody

/-- The header, the code and the sections. -/
def enc (b : MisizedBody) : List UInt8 :=
  leBytes 2 (0x3000 + b.flags.bits.toNat) ++ (leBytes 2 b.maxStack.toNat ++
    (leBytes 4 b.code.length ++ (leBytes 4 b.localVarSigTok.toNat ++
      (b.code ++ encMisized b.table (12 + b.code.length) b.before))))

/-- What permissive mode has to return for the body. -/
def parsed (b : MisizedBody) (rva : UInt32) : MethodBody where
  kind := .fat
  flags := b.flags
  maxStack := b.maxStack
  code := b.code
  codeRva := rva + 12
  localVarSig := if b.localVarSigTok = 0 then none else some ⟨b.localVarSigTok⟩
  exceptionHandlers := (decodedBefore b.before).handlers ++ b.table.clauses.map Clause.handler
  unknownSections := (decodedBefore b.before).unknown
  headerDwords := 3
  totalSize := b.enc.length
  diagnostics :=
    [.new .ehSectionSize (misizedStart (12 + b.code.length) b.before) b.table.dataSize]

theorem enc_length (b : MisizedBody) :
    b.enc.length =
      12 + b.code.length + (encMisized b.table (12 + b.code.length) b.before).length := by
  simp only [enc, List.length_append, leBytes_length]
  omega

/-- Permissive mode reads the body. -/
theorem decodes_fat (b : MisizedBody) (rva : UInt32) (tl : List UInt8) :
    Decodes (fun r => r.pos = 0) (parseFat rva .permissive) b.enc (b.parsed rva) tl := by
  have hsections : Decodes (fun r => r.pos = 12 + b.code.length)
      (readSections .permissive b.flags) (encMisized b.table (12 + b.code.length) b.before)
      ((decodedBefore b.before).append
        (b.table.decoded (misizedStart (12 + b.code.length) b.before))) tl := by
    rw [readSections, b.more, if_pos rfl]
    exact decodes_misized b.table b.before ⟨[], [], []⟩ _ tl
  have hfat := decodes_parseFat b.maxStack b.localVarSigTok b.flags_fat.1 b.code_short rva hsections
  rw [← b.enc_length] at hfat
  simp only [Sections.append, decodedBefore_diagnostics, MisizedTable.decoded, List.nil_append,
    List.append_nil] at hfat
  exact hfat

theorem parse_misized (b : MisizedBody) (s : List UInt8) (rva : UInt32) :
    MethodBody.parse (b.enc ++ s) rva = .ok (b.parsed rva) := by
  have hrest : (Reader.new (b.enc ++ s) 0 bodyContext).rest = b.enc ++ s := Reader.rest_new _ _ _
  have hrun := b.decodes_fat rva s (Reader.new (b.enc ++ s) 0 bodyContext) rfl hrest
  rw [← parseBody_run_fat b.flags_fat.2 hrest] at hrun
  simp only [MethodBody.parse, MethodBody.parseWith, hrun]

/-- Strict mode rejects the body: it would leave no diagnostic. -/
theorem strict_rejects (b : MisizedBody) (s : List UInt8) (rva : UInt32) (body : MethodBody) :
    MethodBody.parseWith (b.enc ++ s) rva .strict ≠ .ok body := by
  intro hstrict
  -- what strict mode accepts permissive mode reads alike, but here with a diagnostic
  have hup := MethodBody.parseWith_up hstrict
  have hparse : MethodBody.parseWith (b.enc ++ s) rva .permissive = .ok (b.parsed rva) :=
    b.parse_misized s rva
  rw [hparse] at hup
  cases hup
  cases MethodBody.parseWith_strict_quiet hstrict

end MisizedBody

/-! ## Which sizes are read that way -/

/-- A size is taken to count the section header, unless that leaves a partial clause and the
other reading does not. -/
theorem sectionBodySize_conforming_or (strictness : Strictness) (isEh fat : Bool)
    (declared remaining sectionStart : Nat) :
    sectionBodySize strictness isEh fat declared remaining sectionStart =
        .ok (declared - 4, []) ∨
      (isEh = true ∧ clauseSize fat ∣ declared ∧ ¬ clauseSize fat ∣ declared - 4) := by
  by_cases hfires : isEh = true ∧ (declared - 4) % clauseSize fat ≠ 0 ∧
      declared % clauseSize fat = 0 ∧ declared ≤ remaining
  · obtain ⟨heh, hpartial, hwhole, _⟩ := hfires
    refine .inr ⟨heh, Nat.dvd_of_mod_eq_zero hwhole, ?_⟩
    intro hdvd
    exact hpartial (Nat.mod_eq_zero_of_dvd hdvd)
  · exact .inl (if_neg hfires)

/-- The same of a section that is read: it ends where its size says, or where the bytes end,
unless its size reads as one without the header only. -/
theorem section_conforming_or {r r' : Reader} {decoded : Sections} {more : Bool}
    (hrun : (readSection .permissive).run r = .ok (decoded, more) r') :
    ∃ h, sectionHeader? r.data r.pos = some h ∧
      (r'.pos = min (h.bodyStart + (h.dataSize - 4)) r.data.length ∨
        (h.isEh = true ∧ clauseSize h.fat ∣ h.dataSize ∧
          ¬ clauseSize h.fat ∣ h.dataSize - 4)) := by
  obtain ⟨h, hheader, _, _, _, hpos, _⟩ := section_ok hrun
  refine ⟨h, hheader, ?_⟩
  have hle := (bodyStart_le hheader).2
  by_cases hfires : h.isEh = true ∧ (h.dataSize - 4) % clauseSize h.fat ≠ 0 ∧
      h.dataSize % clauseSize h.fat = 0 ∧ h.dataSize ≤ r.data.length - h.bodyStart
  · obtain ⟨heh, hpartial, hwhole, _⟩ := hfires
    refine .inr ⟨heh, Nat.dvd_of_mod_eq_zero hwhole, ?_⟩
    intro hdvd
    exact hpartial (Nat.mod_eq_zero_of_dvd hdvd)
  · left
    rw [hpos, SectionHeader.next, SectionHeader.bodySize, if_neg hfires]
    omega

/-- A mis-sized exception table at the end of a body is recovered in full, with the body
ending after its last clause and one diagnostic, where strict mode rejects the body; and no
other section is read that way. -/
theorem misized_recovered :
    (∀ (b : MisizedBody) (s : List UInt8) (rva : UInt32),
      MethodBody.parse (b.enc ++ s) rva = .ok (b.parsed rva) ∧
      ∀ body, MethodBody.parseWith (b.enc ++ s) rva .strict ≠ .ok body) ∧
    (∀ strictness isEh fat declared remaining sectionStart,
      sectionBodySize strictness isEh fat declared remaining sectionStart =
          .ok (declared - 4, []) ∨
        (isEh = true ∧ clauseSize fat ∣ declared ∧ ¬ clauseSize fat ∣ declared - 4)) ∧
    (∀ (r r' : Reader) decoded more,
      (readSection .permissive).run r = .ok (decoded, more) r' →
      ∃ h, sectionHeader? r.data r.pos = some h ∧
        (r'.pos = min (h.bodyStart + (h.dataSize - 4)) r.data.length ∨
          (h.isEh = true ∧ clauseSize h.fat ∣ h.dataSize ∧
            ¬ clauseSize h.fat ∣ h.dataSize - 4))) := by
  refine ⟨?_, ?_, ?_⟩
  · intro b s rva
    exact ⟨b.parse_misized s rva, b.strict_rejects s rva⟩
  · intro strictness isEh fat declared remaining sectionStart
    exact sectionBodySize_conforming_or strictness isEh fat declared remaining sectionStart
  · intro r r' decoded more hrun
    exact section_conforming_or hrun

theorem finallyClauses_size : [(⟨2, 0, 2, 2, 1, 0⟩ : Clause)].length * clauseSize false <
    if false then 2 ^ 24 else 2 ^ 8 := by
  decide

/-- The `finally` of `finallyBody`, in a table of twelve bytes that says so. -/
def finallyMisized : MisizedBody where
  flags := finallyBody.flags
  maxStack := 1
  localVarSigTok := 0
  code := finallyBody.code
  before := []
  table := {
    fat := false
    kindBits := 0
    reserved := 0
    clauses := [⟨2, 0, 2, 2, 1, 0⟩]
    kindBits_free := finallyTable.kindBits_free
    nonempty := List.cons_ne_nil _ _
    size_fits := finallyClauses_size
    clauses_ok := finallyTable.clauses_ok }
  flags_fat := finallyBody.flags_fat
  code_short := finallyBody.code_short
  more := finallyBody.more_iff

example : finallyMisized.enc =
    [0x1B, 0x30, 0x01, 0x00, 0x03, 0x00, 0x00, 0x00, 0x00, 0x00, 0x00, 0x00, 0x00, 0x00, 0xDC, 0x00,
      0x01, 0x0C, 0x00, 0x00, 0x02, 0x00, 0x00, 0x00, 0x02, 0x02, 0x00, 0x01,
      0x00, 0x00, 0x00, 0x00] := by decide

theorem finallyMisized_read :
    (readSection .permissive).run (Reader.new finallyMisized.table.enc 0 bodyContext) =
      .ok (finallyMisized.table.decoded 0, false)
        ((Reader.new finallyMisized.table.enc 0 bodyContext).advance 16) := by
  have hrest : (Reader.new finallyMisized.table.enc 0 bodyContext).rest =
      Reader.padding 0 ++ finallyMisized.table.enc ++ [] := by
    rw [Reader.rest_new, List.append_nil]
    rfl
  exact finallyMisized.table.decodes 0 [] _ rfl hrest

/-- The body is read, and the byte after it is not. -/
theorem misized_recovered_finally :
    (MethodBody.parse (finallyMisized.enc ++ [0xFF]) 0).isOk = true ∧
    ∃ h, sectionHeader? finallyMisized.table.enc 0 = some h ∧
      (16 = min (h.bodyStart + (h.dataSize - 4)) finallyMisized.table.enc.length ∨
        (h.isEh = true ∧ clauseSize h.fat ∣ h.dataSize ∧
          ¬ clauseSize h.fat ∣ h.dataSize - 4)) := by
  refine ⟨?_, misized_recovered.2.2 _ _ _ _ finallyMisized_read⟩
  rw [(misized_recovered.1 finallyMisized [0xFF] 0).1]
  rfl

end Cildec
