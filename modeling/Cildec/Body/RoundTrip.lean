import Cildec.Body.Encode

/-!
# Method bodies are read back

`MethodBody.parse_enc`: a tiny or fat body that is written, with the chain of its data
sections, is read back whole, and what follows it does not matter.
-/

namespace Cildec

open Wire

/-! ## The chain of sections -/

/-- The sections from offset `n` on, each aligned and all but the last with `MoreSects`. -/
def encSections : Nat → List DataSection → List UInt8
  | _, [] => []
  | n, s :: ss =>
      let bytes := Reader.padding n ++ s.enc (!ss.isEmpty)
      bytes ++ encSections (n + bytes.length) ss

/-- What the sections leave with a reader. -/
def decodedSections : List DataSection → Sections
  | [] => ⟨[], [], []⟩
  | s :: ss => (s.decoded (!ss.isEmpty)).append (decodedSections ss)

theorem Sections.append_assoc (a b c : Sections) :
    (a.append b).append c = a.append (b.append c) := by
  simp [Sections.append]

theorem Sections.append_empty (a : Sections) : a.append ⟨[], [], []⟩ = a := by
  simp [Sections.append]

/-- Sections that are read back leave no diagnostic. -/
theorem decodedSections_diagnostics (ss : List DataSection) :
    (decodedSections ss).diagnostics = [] := by
  induction ss with
  | nil => rfl
  | cons s ss ih =>
      rw [decodedSections, Sections.append, s.decoded_diagnostics, ih]
      rfl

theorem encSections_ne_nil {ss : List DataSection} (h : ss ≠ []) (n : Nat) :
    encSections n ss ≠ [] := by
  cases ss with
  | nil => exact absurd rfl h
  | cons s ss => simp [encSections, DataSection.enc]

/-- One step of the chain. -/
theorem parseSections_run (strictness : Strictness) (sections : Sections) (r : Reader) :
    (parseSections strictness sections).run r =
      match (readSection strictness).run r with
      | .error e r' => .error e r'
      | .ok (decoded, more) r' =>
          if !more then .ok (sections.append decoded) r'
          else if r'.isEmpty then
            if strictness.isStrict then .error (Error.new .truncated r'.position bodyContext) r'
            else .ok (sections.append decoded) r'
          else (parseSections strictness (sections.append decoded)).run r' := by
  show parseSections strictness sections r = _
  rw [parseSections]
  split <;> simp_all
  all_goals rfl

/-- The chain is read back: by induction on its sections. -/
theorem decodes_sections (strictness : Strictness) {ss : List DataSection} (hne : ss ≠ [])
    (sections : Sections) (n : Nat) (tl : List UInt8) :
    Decodes (fun r => r.pos = n) (parseSections strictness sections) (encSections n ss)
      (sections.append (decodedSections ss)) tl := by
  induction ss generalizing sections n with
  | nil => exact absurd rfl hne
  | cons s ss ih =>
      intro r hpos hrest
      rw [encSections, List.append_assoc] at hrest
      have hrun := s.decodes_section strictness (!ss.isEmpty) n _ r hpos hrest
      have hafter := rest_advance_of_append hrest
      rw [parseSections_run, hrun]
      cases ss with
      | nil =>
          simp only [List.isEmpty_nil, Bool.not_true, Bool.not_false, if_true, decodedSections,
            Sections.append_empty, encSections, List.append_nil]
      | cons s' ss' =>
          have hnext := encSections_ne_nil (List.cons_ne_nil s' ss')
            (n + (Reader.padding n ++ s.enc (!(s' :: ss').isEmpty)).length)
          have hmore := Reader.isEmpty_of_rest hafter
            (List.append_ne_nil_of_left_ne_nil hnext tl)
          have htail := ih (List.cons_ne_nil s' ss')
            (sections.append (s.decoded (!(s' :: ss').isEmpty))) _ _
            (Reader.pos_advance r hpos hrest) hafter
          rw [List.isEmpty_cons, Bool.not_false] at hmore htail ⊢
          simp only [Bool.not_true, Bool.false_eq_true, if_false, hmore, htail]
          rw [Cursor.advance_advance, ← List.length_append, Sections.append_assoc]
          rfl

/-! ## Bodies -/

/-- The flags and the size of a header of three dwords, in one word. -/
def flagsWord (flags : FatFlags) : UInt16 := UInt16.ofNat (0x3000 + flags.bits.toNat)

section FlagsWord

variable {flags : FatFlags} (h : flags.bits.toNat < 2 ^ 12)
include h

theorem flagsWord_toNat : (flagsWord flags).toNat = 0x3000 + flags.bits.toNat :=
  UInt16.toNat_ofNat_of_lt' (by
    show _ < 2 ^ 16
    omega)

theorem flagsWord_flags : flagsWord flags &&& 0x0FFF = flags.bits := by
  apply UInt16.toNat_inj.mp
  rw [UInt16.toNat_and, flagsWord_toNat h,
    show (0x0FFF : UInt16).toNat = 2 ^ 12 - 1 from rfl, Nat.and_two_pow_sub_one_eq_mod]
  omega

theorem flagsWord_dwords : (flagsWord flags >>> 12).toUInt8 = 3 := by
  apply UInt8.toNat_inj.mp
  rw [UInt16.toNat_toUInt8, UInt16.toNat_shiftRight, flagsWord_toNat h,
    show (12 : UInt16).toNat % 16 = 12 from rfl, Nat.shiftRight_eq_div_pow]
  show _ = 3
  omega

end FlagsWord

/-- A header of three dwords, the code and whatever the sections are read from. -/
theorem decodes_parseFat {flags : FatFlags} (maxStack : UInt16) (tok : UInt32)
    {code sectionBytes : List UInt8} {sections : Sections} (hflags : flags.bits.toNat < 2 ^ 12)
    (hcode : code.length < 2 ^ 32) (rva : UInt32) {tl : List UInt8}
    (hsections : Decodes (fun r => r.pos = 12 + code.length) (readSections .permissive flags)
      sectionBytes sections tl) :
    Decodes (fun r => r.pos = 0) (parseFat rva .permissive)
      (leBytes 2 (0x3000 + flags.bits.toNat) ++ (leBytes 2 maxStack.toNat ++
        (leBytes 4 code.length ++ (leBytes 4 tok.toNat ++ (code ++ sectionBytes)))))
      { kind := .fat
        flags
        maxStack
        code
        codeRva := rva + 12
        localVarSig := if tok = 0 then none else some ⟨tok⟩
        exceptionHandlers := sections.handlers
        unknownSections := sections.unknown
        headerDwords := 3
        totalSize := 12 + code.length + sectionBytes.length
        diagnostics := sections.diagnostics } tl := by
  have hsize : (UInt32.ofNat code.length).toNat = code.length :=
    UInt32.toNat_ofNat_of_lt' hcode
  have hwidth (n k v : Nat) : n + (leBytes k v).length = n + k := by rw [leBytes_length]
  rw [← flagsWord_toNat hflags, ← hsize]
  refine Reader.decodes_bind_pos (Reader.decodes_u16 _ (flagsWord flags) _) (hwidth 0 2 _) ?_
  simp only [flagsWord_flags hflags, flagsWord_dwords hflags]
  refine Reader.decodes_bind_pos (Reader.decodes_u16 _ maxStack _) (hwidth 2 2 _) ?_
  refine Reader.decodes_bind_pos (Reader.decodes_u32 _ (UInt32.ofNat code.length) _)
    (hwidth 4 4 _) ?_
  refine Reader.decodes_bind_pos (Reader.decodes_u32 _ tok _) (hwidth 8 4 _) ?_
  refine Decodes.ofExcept_bind (a := []) rfl ?_
  refine Decodes.nil_bind (Reader.decodes_seek 12 _) ?_
  rw [hsize]
  refine Reader.decodes_bind_pos (Reader.decodes_take _ code _) rfl ?_
  refine Decodes.ofExcept_bind (a := ()) rfl ?_
  refine Decodes.bind_nil (Q := fun r => r.pos = 12 + code.length + sectionBytes.length)
    hsections (fun r hpos hrest => Reader.pos_advance r hpos hrest) ?_
  refine Decodes.get_bind fun r hpos _ => ?_
  have hposition : r.position = 12 + code.length + sectionBytes.length := hpos
  simp only [hposition, List.nil_append]
  exact Decodes.pure _ _ tl

/-- A fat body with a header of three dwords. `flags` has the format bits; its `MoreSects`
bit says whether there are sections. -/
structure FatBody where
  flags : FatFlags
  maxStack : UInt16
  localVarSigTok : UInt32
  code : List UInt8
  sections : List DataSection
  flags_fat : flags.bits.toNat < 2 ^ 12 ∧ flags.bits.toNat % 4 = 3
  code_short : code.length < 2 ^ 32
  more_iff : flags.moreSects = !sections.isEmpty

namespace FatBody

/-- The header: flags and size, `MaxStack`, `CodeSize` and `LocalVarSigTok`. -/
def header (b : FatBody) : List UInt8 :=
  leBytes 2 (0x3000 + b.flags.bits.toNat) ++ (leBytes 2 b.maxStack.toNat ++
    (leBytes 4 b.code.length ++ leBytes 4 b.localVarSigTok.toNat))

def enc (b : FatBody) : List UInt8 :=
  b.header ++ (b.code ++ encSections (12 + b.code.length) b.sections)

/-- What a parser has to return for the body. -/
def parsed (b : FatBody) (rva : UInt32) : MethodBody where
  kind := .fat
  flags := b.flags
  maxStack := b.maxStack
  code := b.code
  codeRva := rva + 12
  localVarSig := if b.localVarSigTok = 0 then none else some ⟨b.localVarSigTok⟩
  exceptionHandlers := (decodedSections b.sections).handlers
  unknownSections := (decodedSections b.sections).unknown
  headerDwords := 3
  totalSize := b.enc.length
  diagnostics := []

/-- The sections of a body are read back, when its flags announce them. -/
theorem decodes_sections (b : FatBody) (strictness : Strictness) (n : Nat) (tl : List UInt8) :
    Decodes (fun r => r.pos = n) (readSections strictness b.flags) (encSections n b.sections)
      (decodedSections b.sections) tl := by
  unfold readSections
  rw [b.more_iff]
  cases hsections : b.sections with
  | nil => exact Decodes.pure _ _ tl
  | cons s ss =>
      exact Cildec.decodes_sections strictness (List.cons_ne_nil s ss) ⟨[], [], []⟩ n tl

theorem enc_length (b : FatBody) :
    b.enc.length = 12 + b.code.length + (encSections (12 + b.code.length) b.sections).length := by
  simp only [enc, header, List.length_append, leBytes_length]
  omega

/-- A fat body is read back. -/
theorem decodes_fat (b : FatBody) (rva : UInt32) (tl : List UInt8) :
    Decodes (fun r => r.pos = 0) (parseFat rva .permissive) b.enc (b.parsed rva) tl := by
  have henc : b.enc = leBytes 2 (0x3000 + b.flags.bits.toNat) ++ (leBytes 2 b.maxStack.toNat ++
      (leBytes 4 b.code.length ++ (leBytes 4 b.localVarSigTok.toNat ++
        (b.code ++ encSections (12 + b.code.length) b.sections)))) := by
    rw [enc, header]
    simp only [List.append_assoc]
  have hfat := decodes_parseFat b.maxStack b.localVarSigTok b.flags_fat.1 b.code_short rva
    (b.decodes_sections .permissive (12 + b.code.length) tl)
  rw [decodedSections_diagnostics, ← b.enc_length] at hfat
  rw [henc]
  rwa [henc] at hfat

end FatBody

/-- A body that can be written. -/
inductive Body where
  | tiny (code : List UInt8) (short : code.length ≤ 63)
  | fat (body : FatBody)

namespace Body

/-- The bytes of a body. -/
def enc : Body → List UInt8
  | .tiny code _ => [UInt8.ofNat (4 * code.length + 2)] ++ code
  | .fat body => body.enc

/-- What a parser has to return for the body. -/
def parsed (rva : UInt32) : Body → MethodBody
  | .tiny code _ => {
      kind := .tiny
      flags := ⟨0⟩
      maxStack := 8
      code
      codeRva := rva + 1
      localVarSig := none
      exceptionHandlers := []
      unknownSections := []
      headerDwords := 0
      totalSize := 1 + code.length
      diagnostics := [] }
  | .fat body => body.parsed rva

theorem totalSize_parsed (b : Body) (rva : UInt32) : (b.parsed rva).totalSize = b.enc.length := by
  cases b with
  | tiny code _ => simp [enc, parsed, Nat.add_comm]
  | fat body => rfl

end Body

/-- The header byte of a tiny body. -/
theorem tinyHeader_toNat {code : List UInt8} (short : code.length ≤ 63) :
    (UInt8.ofNat (4 * code.length + 2)).toNat = 4 * code.length + 2 :=
  UInt8.toNat_ofNat_of_lt' (by
    show _ < 2 ^ 8
    omega)

/-- A tiny body is read back. -/
theorem decodes_tiny {code : List UInt8} (short : code.length ≤ 63) (rva : UInt32)
    (tl : List UInt8) :
    Decodes (fun _ => True) (parseTiny rva) (Body.tiny code short).enc
      ((Body.tiny code short).parsed rva) tl := by
  have hsize : (UInt8.ofNat (4 * code.length + 2) >>> 2).toNat = code.length := by
    rw [UInt8.toNat_shiftRight, tinyHeader_toNat short, show (2 : UInt8).toNat % 8 = 2 from rfl,
      Nat.shiftRight_eq_div_pow]
    omega
  refine Decodes.seq (Reader.decodes_u8 _ _ _) ?_
  simp only [hsize]
  exact (Reader.decodes_take _ code tl).map _

/-- The low two bits of a byte. -/
theorem low_two_bits {b low : UInt8} (h : b.toNat % 4 = low.toNat) : b &&& 0x03 = low := by
  apply UInt8.toNat_inj.mp
  rw [UInt8.toNat_and, show (0x03 : UInt8).toNat = 2 ^ 2 - 1 from rfl,
    Nat.and_two_pow_sub_one_eq_mod, ← h]

/-- The format bits of a fat header are in its first byte. -/
theorem parseBody_run_fat {flags : FatFlags} (hfat : flags.bits.toNat % 4 = 3) {rva : UInt32}
    {strictness : Strictness} {r : Reader} {tl : List UInt8}
    (hrest : Wire.Cursor.rest r = UInt8.ofNat (0x3000 + flags.bits.toNat) :: tl) :
    (parseBody rva strictness).run r = (parseFat rva strictness).run r := by
  have hlow : UInt8.ofNat (0x3000 + flags.bits.toNat) &&& 0x03 = 0x03 :=
    low_two_bits (by
      rw [UInt8.toNat_ofNat']
      show _ = 3
      omega)
  have hpeek := Reader.peekU8_run_cons (r := r) hrest
  rw [parseBody, run_bind_of_ok hpeek, if_neg (by rw [hlow]; decide), if_pos hlow]

/-- A body is read back by the parser its first byte selects. -/
theorem Body.decodes_body (b : Body) (rva : UInt32) (tl : List UInt8) :
    Decodes (fun r => r.pos = 0) (parseBody rva .permissive) b.enc (b.parsed rva) tl := by
  intro r hpos hrest
  cases b with
  | tiny code short =>
      have hlow : UInt8.ofNat (4 * code.length + 2) &&& 0x03 = 0x02 := low_two_bits (by
        rw [tinyHeader_toNat short]
        show _ = 2
        omega)
      have hpeek := Reader.peekU8_run_cons (r := r) hrest
      rw [parseBody, run_bind_of_ok hpeek, if_pos hlow]
      exact decodes_tiny short rva tl r trivial hrest
  | fat body =>
      rw [parseBody_run_fat body.flags_fat.2 hrest]
      exact body.decodes_fat rva tl r hpos hrest

/-- Decode undoes encode for method bodies: a tiny or fat body is read back with its
sections, whatever bytes follow it. -/
theorem MethodBody.parse_enc (b : Body) (s : List UInt8) (rva : UInt32) :
    MethodBody.parse (b.enc ++ s) rva = .ok (b.parsed rva) := by
  have hrun := b.decodes_body rva s (Reader.new (b.enc ++ s) 0 bodyContext) rfl
    (Reader.rest_new _ _ _)
  simp only [MethodBody.parse, MethodBody.parseWith, hrun]

/-- A `finally` around the first two bytes of the code. -/
def finallyTable : DataSection where
  fat := false
  kindBits := 0
  content := .clauses [⟨2, 0, 2, 2, 1, 0⟩]
  kindBits_free := rfl
  size_fits := by decide
  clauses_ok c hc := by
    rw [SectionContent.clauseList, List.mem_singleton] at hc
    subst hc
    exact ⟨.inr (.inr (.inl rfl)), fun _ => ⟨by decide, by decide, by decide, by decide, by decide⟩⟩

/-- A body with an exception table and, after it, a section that is kept as bytes. -/
def finallyBody : FatBody where
  flags := ⟨0x001B⟩
  maxStack := 1
  localVarSigTok := 0
  code := [0x00, 0x00, 0xDC]
  sections := [finallyTable, ⟨false, 0x02, .bytes [0xAB], rfl, by decide, by simp [SectionContent.clauseList]⟩]
  flags_fat := by decide
  code_short := by decide
  more_iff := rfl

example : finallyBody.enc =
    [0x1B, 0x30, 0x01, 0x00, 0x03, 0x00, 0x00, 0x00, 0x00, 0x00, 0x00, 0x00, 0x00, 0x00, 0xDC, 0x00,
      0x81, 0x10, 0x00, 0x00, 0x02, 0x00, 0x00, 0x00, 0x02, 0x02, 0x00, 0x01, 0x00, 0x00, 0x00, 0x00,
      0x02, 0x05, 0x00, 0x00, 0xAB] := by decide

end Cildec
