import Cildec.Body.Parse
import Cildec.Lib.Segments

/-!
# Writing method bodies (ECMA-335 II.25.4)

`Body` is a body that can be written: a tiny one, or a fat one with a header of three
dwords and a chain of data sections whose sizes conform. Its fields carry the bounds of
the format, so `parse_enc` reads every `Body` back, whatever follows it.
-/

namespace Cildec

open Wire

/-! ## Clauses -/

namespace Clause

/-- The clause fits the narrow fields of a small section. -/
structure Small (c : Clause) : Prop where
  flags : c.flags.toNat < 2 ^ 16
  tryOffset : c.tryOffset.toNat < 2 ^ 16
  tryLength : c.tryLength.toNat < 2 ^ 8
  handlerOffset : c.handlerOffset.toNat < 2 ^ 16
  handlerLength : c.handlerLength.toNat < 2 ^ 8

/-- The low three flag bits name a kind of handler. -/
def Legal (c : Clause) : Prop :=
  c.flags &&& 7 = 0 ∨ c.flags &&& 7 = 1 ∨ c.flags &&& 7 = 2 ∨ c.flags &&& 7 = 4

/-- What the flags of a legal clause say it does. -/
def handlerKind (c : Clause) : HandlerKind :=
  if c.flags &&& 7 = 1 then .filter c.extra
  else if c.flags &&& 7 = 2 then .finallyBlock
  else if c.flags &&& 7 = 4 then .fault
  else .catchType ⟨c.extra⟩

def handler (c : Clause) : ExceptionHandler := c.toHandler c.handlerKind

/-- The bytes of a clause in a fat or a small section. -/
def enc (fat : Bool) (c : Clause) : List UInt8 :=
  if fat then
    leBytes 4 c.flags.toNat ++ (leBytes 4 c.tryOffset.toNat ++ (leBytes 4 c.tryLength.toNat ++
      (leBytes 4 c.handlerOffset.toNat ++ (leBytes 4 c.handlerLength.toNat ++
        leBytes 4 c.extra.toNat))))
  else
    leBytes 2 c.flags.toUInt16.toNat ++ (leBytes 2 c.tryOffset.toUInt16.toNat ++
      ([c.tryLength.toUInt8] ++ (leBytes 2 c.handlerOffset.toUInt16.toNat ++
        ([c.handlerLength.toUInt8] ++ leBytes 4 c.extra.toNat))))

theorem enc_length (fat : Bool) (c : Clause) : (c.enc fat).length = clauseSize fat := by
  cases fat <;> simp [enc, clauseSize]

theorem decodes_fatClause (c : Clause) (tl : List UInt8) :
    Decodes (fun _ => True) readFatClause (c.enc true) c tl := by
  refine Decodes.seq (Reader.decodes_u32 _ c.flags _) ?_
  refine Decodes.seq (Reader.decodes_u32 _ c.tryOffset _) ?_
  refine Decodes.seq (Reader.decodes_u32 _ c.tryLength _) ?_
  refine Decodes.seq (Reader.decodes_u32 _ c.handlerOffset _) ?_
  refine Decodes.seq (Reader.decodes_u32 _ c.handlerLength _) ?_
  exact (Reader.decodes_u32 _ c.extra tl).map _

theorem toUInt32_toUInt16 {v : UInt32} (h : v.toNat < 2 ^ 16) : v.toUInt16.toUInt32 = v := by
  apply UInt32.toNat_inj.mp
  simp only [UInt16.toNat_toUInt32, UInt32.toNat_toUInt16]
  omega

theorem toUInt32_toUInt8 {v : UInt32} (h : v.toNat < 2 ^ 8) : v.toUInt8.toUInt32 = v := by
  apply UInt32.toNat_inj.mp
  simp only [UInt8.toNat_toUInt32, UInt32.toNat_toUInt8]
  omega

theorem decodes_smallClause {c : Clause} (hc : c.Small) (tl : List UInt8) :
    Decodes (fun _ => True) readSmallClause (c.enc false) c tl := by
  have hread : Decodes (fun _ => True) readSmallClause (c.enc false)
      { flags := c.flags.toUInt16.toUInt32
        tryOffset := c.tryOffset.toUInt16.toUInt32
        tryLength := c.tryLength.toUInt8.toUInt32
        handlerOffset := c.handlerOffset.toUInt16.toUInt32
        handlerLength := c.handlerLength.toUInt8.toUInt32
        extra := c.extra } tl := by
    refine Decodes.seq (Reader.decodes_u16 _ c.flags.toUInt16 _) ?_
    refine Decodes.seq (Reader.decodes_u16 _ c.tryOffset.toUInt16 _) ?_
    refine Decodes.seq (Reader.decodes_u8 _ c.tryLength.toUInt8 _) ?_
    refine Decodes.seq (Reader.decodes_u16 _ c.handlerOffset.toUInt16 _) ?_
    refine Decodes.seq (Reader.decodes_u8 _ c.handlerLength.toUInt8 _) ?_
    exact (Reader.decodes_u32 _ c.extra tl).map _
  rwa [toUInt32_toUInt16 hc.flags, toUInt32_toUInt16 hc.tryOffset, toUInt32_toUInt8 hc.tryLength,
    toUInt32_toUInt16 hc.handlerOffset, toUInt32_toUInt8 hc.handlerLength] at hread

theorem kind_of_legal {c : Clause} (hc : c.Legal) (offset : Nat) :
    c.kind offset = .ok c.handlerKind := by
  rcases hc with h | h | h | h <;> simp [kind, handlerKind, h]

/-- A clause is read back from its bytes. -/
theorem readClause_enc {c : Clause} {fat : Bool} (hlegal : c.Legal)
    (hsmall : fat = false → c.Small) (offset : Nat) :
    readClause (c.enc fat) fat offset = .ok c.handler := by
  have hrun : (if fat then readFatClause else readSmallClause).run
      (Reader.new (c.enc fat) offset clauseContext) =
      .ok c (Wire.advance (c.enc fat).length (Reader.new (c.enc fat) offset clauseContext)) := by
    cases fat with
    | true => exact c.decodes_fatClause [] _ trivial (by simp)
    | false => exact decodes_smallClause (hsmall rfl) [] _ trivial (by simp)
  simp only [readClause, hrun, kind_of_legal hlegal, handler]

end Clause

/-- A table of clauses is read back clause by clause. -/
theorem readClauses_enc {clauses : List Clause} {fat : Bool}
    (hclauses : ∀ c ∈ clauses, c.Legal ∧ (fat = false → c.Small)) (sectionStart : Nat) :
    readClauses (clauses.flatMap (Clause.enc fat)) fat sectionStart =
      .ok (clauses.map Clause.handler) := by
  have hlen := length_flatMap_const fun c (_ : c ∈ clauses) => c.enc_length fat
  have hsize : 0 < clauseSize fat := by cases fat <;> decide
  rw [readClauses, hlen, Nat.mul_div_cancel _ hsize, ← List.length_map (f := Clause.handler)]
  refine mapM_range_ok fun i h hi => ?_
  rw [List.getElem?_map, Option.map_eq_some_iff] at hi
  obtain ⟨c, hc, rfl⟩ := hi
  obtain ⟨hlegal, hsmall⟩ := hclauses c (List.mem_of_getElem? hc)
  obtain ⟨pre, post, hsplit, hpre⟩ :=
    flatMap_split_const (fun c (_ : c ∈ clauses) => c.enc_length fat) hc
  rw [hsplit, take_drop_append hpre (c.enc_length fat)]
  exact Clause.readClause_enc hlegal hsmall _

/-! ## Sections -/

/-- A size is read back from the three bytes of a fat section, or from the one of a small one,
where two reserved bytes follow it. -/
theorem decodes_sizeField {fat : Bool} {size : Nat} (hsize : size < if fat then 2 ^ 24 else 2 ^ 8)
    (reserved : UInt16) (P : Reader → Prop) (tl : List UInt8) :
    Decodes P (readDataSize fat)
      (if fat then leBytes 3 size else [UInt8.ofNat size] ++ leBytes 2 reserved.toNat) size tl := by
  unfold readDataSize
  cases fat with
  | true =>
      have htake := (Reader.decodes_take P (leBytes 3 size) tl).map leNat
      rw [leBytes_length, leNat_leBytes hsize] at htake
      exact htake
  | false =>
      have htoNat : (UInt8.ofNat size).toNat = size := UInt8.toNat_ofNat_of_lt' hsize
      have hread := Decodes.bind (Q := fun _ => True) (f := fun size : UInt8 => do
          let _reserved ← Reader.u16
          return size.toNat)
        (Reader.decodes_u8 P (UInt8.ofNat size) _)
        (fun _ _ _ => trivial) ((Reader.decodes_u16 _ reserved tl).map _)
      rw [htoNat] at hread
      exact hread

/-- What a section holds: the clauses of an exception table, or bytes. -/
inductive SectionContent where
  | clauses (cs : List Clause)
  | bytes (data : List UInt8)
  deriving DecidableEq, Repr

namespace SectionContent

def isEh : SectionContent → Bool
  | .clauses _ => true
  | .bytes _ => false

def clauseList : SectionContent → List Clause
  | .clauses cs => cs
  | .bytes _ => []

/-- The bytes after the section header. -/
def payload (fat : Bool) : SectionContent → List UInt8
  | .clauses cs => cs.flatMap (Clause.enc fat)
  | .bytes data => data

end SectionContent

/-- A data section: its format, the kind bits without a meaning here, and a content whose
size its `DataSize` can say. -/
structure DataSection where
  fat : Bool
  kindBits : UInt8
  content : SectionContent
  kindBits_free : kindBits &&& 0xC1 = 0
  size_fits : (content.payload fat).length + 4 < if fat then 2 ^ 24 else 2 ^ 8
  clauses_ok : ∀ c ∈ content.clauseList, c.Legal ∧ (fat = false → c.Small)

namespace DataSection

/-- The `Kind` byte; `more` says that another section follows. -/
def kind (s : DataSection) (more : Bool) : UInt8 :=
  s.kindBits ||| (if s.content.isEh then 0x01 else 0) ||| (if s.fat then 0x40 else 0) |||
    (if more then 0x80 else 0)

/-- `DataSize`: the section header and the payload. -/
def dataSize (s : DataSection) : Nat := (s.content.payload s.fat).length + 4

/-- The size field of the section header. -/
def sizeField (s : DataSection) : List UInt8 :=
  if s.fat then leBytes 3 s.dataSize else [UInt8.ofNat s.dataSize] ++ leBytes 2 0

/-- The section header and the payload. -/
def enc (s : DataSection) (more : Bool) : List UInt8 :=
  [s.kind more] ++ (s.sizeField ++ s.content.payload s.fat)

/-- What the section leaves with a reader. -/
def decoded (s : DataSection) (more : Bool) : Sections :=
  match s.content with
  | .clauses cs => ⟨[], cs.map Clause.handler, []⟩
  | .bytes data => ⟨[], [], [⟨s.kind more, data⟩]⟩

/-- The bits of the kind byte do not disturb each other. -/
theorem kind_bits (bits : UInt8) (h : bits &&& 0xC1 = 0) (eh fat more : Bool) :
    (bits ||| (if eh then 0x01 else 0) ||| (if fat then 0x40 else 0) |||
      (if more then 0x80 else 0) : UInt8) &&& 0x01 = (if eh then 0x01 else 0) ∧
    (bits ||| (if eh then 0x01 else 0) ||| (if fat then 0x40 else 0) |||
      (if more then 0x80 else 0) : UInt8) &&& 0x40 = (if fat then 0x40 else 0) ∧
    (bits ||| (if eh then 0x01 else 0) ||| (if fat then 0x40 else 0) |||
      (if more then 0x80 else 0) : UInt8) &&& 0x80 = (if more then 0x80 else 0) := by
  have hall : ∀ n : Fin 256, UInt8.ofNat n.val &&& 0xC1 = 0 → ∀ eh fat more : Bool,
      (UInt8.ofNat n.val ||| (if eh then 0x01 else 0) ||| (if fat then 0x40 else 0) |||
        (if more then 0x80 else 0) : UInt8) &&& 0x01 = (if eh then 0x01 else 0) ∧
      (UInt8.ofNat n.val ||| (if eh then 0x01 else 0) ||| (if fat then 0x40 else 0) |||
        (if more then 0x80 else 0) : UInt8) &&& 0x40 = (if fat then 0x40 else 0) ∧
      (UInt8.ofNat n.val ||| (if eh then 0x01 else 0) ||| (if fat then 0x40 else 0) |||
        (if more then 0x80 else 0) : UInt8) &&& 0x80 = (if more then 0x80 else 0) := by
    decide +kernel
  have hbits := hall ⟨bits.toNat, bits.toNat_lt⟩
  rw [UInt8.ofNat_toNat] at hbits
  exact hbits h eh fat more

theorem kind_isEh (s : DataSection) (more : Bool) :
    (s.kind more &&& 0x01 != 0) = s.content.isEh := by
  rw [kind, (kind_bits s.kindBits s.kindBits_free _ _ _).1]
  cases s.content.isEh <;> rfl

theorem kind_fat (s : DataSection) (more : Bool) : (s.kind more &&& 0x40 != 0) = s.fat := by
  rw [kind, (kind_bits s.kindBits s.kindBits_free _ _ _).2.1]
  cases s.fat <;> rfl

theorem kind_more (s : DataSection) (more : Bool) : (s.kind more &&& 0x80 != 0) = more := by
  rw [kind, (kind_bits s.kindBits s.kindBits_free _ _ _).2.2]
  cases more <;> rfl

/-- An exception table is a whole number of clauses. -/
theorem payload_mod (s : DataSection) (h : s.content.isEh = true) :
    (s.content.payload s.fat).length % clauseSize s.fat = 0 := by
  cases hcontent : s.content with
  | bytes data =>
      rw [hcontent] at h
      cases h
  | clauses cs =>
      rw [SectionContent.payload, length_flatMap_const fun c _ => c.enc_length s.fat]
      exact Nat.mul_mod_left _ _

theorem decodes_dataSize (s : DataSection) (P : Reader → Prop) (tl : List UInt8) :
    Decodes P (readDataSize s.fat) s.sizeField s.dataSize tl :=
  decodes_sizeField s.size_fits 0 P tl

/-- A section that is read back leaves no diagnostic. -/
theorem decoded_diagnostics (s : DataSection) (more : Bool) : (s.decoded more).diagnostics = [] := by
  unfold decoded
  split <;> rfl

/-- A conforming size is taken as declared. -/
theorem sectionBodySize_eq (s : DataSection) (strictness : Strictness)
    (remaining sectionStart : Nat) :
    sectionBodySize strictness s.content.isEh s.fat s.dataSize remaining sectionStart =
      .ok ((s.content.payload s.fat).length, []) := by
  have hsub : s.dataSize - 4 = (s.content.payload s.fat).length := Nat.add_sub_cancel _ _
  rw [sectionBodySize, hsub, if_neg]
  rintro ⟨heh, hpartial, _⟩
  exact hpartial (s.payload_mod heh)

theorem decodeSection_eq (s : DataSection) (strictness : Strictness) (more : Bool)
    (sectionStart : Nat) :
    decodeSection strictness (s.kind more) s.fat sectionStart (s.content.payload s.fat) =
      .ok (s.decoded more) := by
  have heh := s.kind_isEh more
  unfold decodeSection
  rw [heh]
  cases hcontent : s.content with
  | bytes data =>
      simp only [SectionContent.isEh, Bool.false_eq_true, if_false, decoded, hcontent]
      rfl
  | clauses cs =>
      have hclauses := s.clauses_ok
      have hmod := s.payload_mod (by rw [hcontent]; rfl)
      rw [hcontent] at hclauses hmod
      have hwhole : checkWholeClauses strictness s.fat
          ((SectionContent.clauses cs).payload s.fat).length sectionStart = .ok [] := by
        rw [checkWholeClauses, if_neg (by rw [hmod]; simp)]
      have hread : readClauses ((SectionContent.clauses cs).payload s.fat) s.fat sectionStart =
          .ok (cs.map Clause.handler) := readClauses_enc hclauses sectionStart
      simp only [SectionContent.isEh, if_true, hwhole, hread, decoded, hcontent]
      rfl

/-- A section is read back, after the padding that aligns it. -/
theorem decodes_section (s : DataSection) (strictness : Strictness) (more : Bool) (n : Nat)
    (tl : List UInt8) :
    Decodes (fun r => r.pos = n) (readSection strictness) (Reader.padding n ++ s.enc more)
      (s.decoded more, more) tl := by
  have hfat := s.kind_fat more
  have heh := s.kind_isEh more
  have hmore := s.kind_more more
  refine Decodes.bind (Q := fun _ => True) (Reader.decodes_alignTo n _)
    (fun _ _ _ => trivial) ?_
  refine Decodes.get_bind fun r _ _ => ?_
  refine Decodes.bind (Q := fun _ => True) (Reader.decodes_u8 _ (s.kind more) _)
    (fun _ _ _ => trivial) ?_
  simp only [hfat, heh, hmore]
  refine Decodes.bind (Q := fun _ => True) (s.decodes_dataSize _ _)
    (fun _ _ _ => trivial) ?_
  refine Decodes.get_bind fun r' _ hrest => ?_
  have hremaining := Reader.remaining_of_rest hrest
  refine Decodes.ofExcept_bind (s.sectionBodySize_eq strictness _ _) ?_
  have hclamp : clampBodySize strictness s.dataSize (s.content.payload s.fat).length r'.remaining
      r.position = .ok ((s.content.payload s.fat).length, []) := by
    rw [clampBodySize, if_neg (by omega)]
  refine Decodes.ofExcept_bind hclamp ?_
  refine Decodes.bind_nil (Q := fun _ => True) (Reader.decodes_take _ _ tl)
    (fun _ _ _ => trivial) ?_
  exact Decodes.ofExcept_bind (s.decodeSection_eq strictness more _) (Decodes.pure _ _ tl)

end DataSection

end Cildec
