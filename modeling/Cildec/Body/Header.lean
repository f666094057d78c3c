import Cildec.Body.Sections

/-!
# Body headers by their place in the bytes (`src/body.rs`)

What a tiny or fat header says, read off the first bytes, and where the code and the data
sections stand by it. `parseFat_ok_iff` says what the parser makes of a fat header in these
terms.
-/

namespace Cildec

open Wire

/-- The fields of a fat header. -/
structure FatHeader where
  flags : FatFlags
  headerDwords : UInt8
  maxStack : UInt16
  codeSize : Nat
  localVarSig : Option Token
  deriving DecidableEq, Repr

namespace FatHeader

/-- The size of the header in bytes, at least that of its fields. -/
def size (h : FatHeader) : Nat := max h.headerDwords.toNat 3 * 4

/-- Where the code ends. -/
def codeEnd (h : FatHeader) : Nat := h.size + h.codeSize

end FatHeader

/-- The fat header in the first twelve bytes. -/
def fatHeader (bytes : List UInt8) : FatHeader :=
  let flagsAndSize := UInt16.ofNat (leNat (bytes.take 2))
  let localVarSigTok := UInt32.ofNat (leNat ((bytes.drop 8).take 4))
  { flags := ⟨flagsAndSize &&& 0x0FFF⟩
    headerDwords := (flagsAndSize >>> 12).toUInt8
    maxStack := UInt16.ofNat (leNat ((bytes.drop 2).take 2))
    codeSize := (UInt32.ofNat (leNat ((bytes.drop 4).take 4))).toNat
    localVarSig := if localVarSigTok = 0 then none else some ⟨localVarSigTok⟩ }

/-- The part of `parseFat` that reads the header. -/
def readFatHeader : Read FatHeader := do
  let flagsAndSize ← Reader.u16
  let maxStack ← Reader.u16
  let codeSize ← Reader.u32
  let localVarSigTok ← Reader.u32
  return {
    flags := ⟨flagsAndSize &&& 0x0FFF⟩
    headerDwords := (flagsAndSize >>> 12).toUInt8
    maxStack
    codeSize := codeSize.toNat
    localVarSig := if localVarSigTok = 0 then none else some ⟨localVarSigTok⟩ }

/-- The part of `parseFat` after the header. -/
def parseFatRest (codeRva : UInt32) (strictness : Strictness) (h : FatHeader) :
    Read MethodBody := do
  let headerDiagnostics ← Wire.ofExcept (checkHeaderSize strictness h.headerDwords)
  Reader.seek h.size
  let code ← Reader.take h.codeSize
  Wire.ofExcept (checkLocalVarSig strictness h.localVarSig)
  let sections ← readSections strictness h.flags
  let r ← get
  return {
    kind := .fat
    flags := h.flags
    maxStack := h.maxStack
    code
    codeRva := codeRva + UInt32.ofNat h.size
    localVarSig := h.localVarSig
    exceptionHandlers := sections.handlers
    unknownSections := sections.unknown
    headerDwords := h.headerDwords
    totalSize := r.position
    diagnostics := headerDiagnostics ++ sections.diagnostics }

theorem parseFat_eq (codeRva : UInt32) (strictness : Strictness) :
    parseFat codeRva strictness = readFatHeader >>= parseFatRest codeRva strictness := by
  simp only [parseFat, readFatHeader, bind_assoc, pure_bind]
  rfl

theorem totalOn_fatHeader : TotalOn 12 readFatHeader :=
  Reader.totalOn_u16.bind fun _ => Reader.totalOn_u16.bind fun _ =>
    Reader.totalOn_u32.bind fun _ => Reader.totalOn_u32.map _

theorem reads_fatHeader : Reads readFatHeader (fun bs h =>
    bs.length = 12 ∧ ∀ tl, fatHeader (bs ++ tl) = h) := by
  refine (Reader.reads_u16.bind fun flagsAndSize => Reader.reads_u16.bind fun maxStack =>
    Reader.reads_u32.bind fun codeSize => Reader.reads_u32.map fun localVarSigTok =>
      ({ flags := ⟨flagsAndSize &&& 0x0FFF⟩
         headerDwords := (flagsAndSize >>> 12).toUInt8
         maxStack
         codeSize := codeSize.toNat
         localVarSig := if localVarSigTok = 0 then none else some ⟨localVarSigTok⟩ } :
        FatHeader)).mono ?_
  rintro bs h ⟨flagsAndSize, _, _, rfl, rfl, maxStack, _, _, rfl, rfl, codeSize, _, _, rfl, rfl,
    localVarSigTok, rfl, rfl⟩
  refine ⟨by simp only [List.length_append, leBytes_length], ?_⟩
  intro tl
  simp only [List.append_assoc]
  have hflags : (leBytes 2 flagsAndSize.toNat ++ (leBytes 2 maxStack.toNat ++
      (leBytes 4 codeSize.toNat ++ (leBytes 4 localVarSigTok.toNat ++ tl)))).take 2 =
      leBytes 2 flagsAndSize.toNat := List.take_left' (leBytes_length _ _)
  have hstack : ((leBytes 2 flagsAndSize.toNat ++ (leBytes 2 maxStack.toNat ++
      (leBytes 4 codeSize.toNat ++ (leBytes 4 localVarSigTok.toNat ++ tl)))).drop 2).take 2 =
      leBytes 2 maxStack.toNat :=
    take_drop_append (leBytes_length 2 _) (leBytes_length 2 _)
  have hcode : (((leBytes 2 flagsAndSize.toNat ++ leBytes 2 maxStack.toNat) ++
      (leBytes 4 codeSize.toNat ++ (leBytes 4 localVarSigTok.toNat ++ tl))).drop 4).take 4 =
      leBytes 4 codeSize.toNat :=
    take_drop_append (by simp only [List.length_append, leBytes_length]) (leBytes_length 4 _)
  have hlocals : (((leBytes 2 flagsAndSize.toNat ++ (leBytes 2 maxStack.toNat ++
      leBytes 4 codeSize.toNat)) ++ (leBytes 4 localVarSigTok.toNat ++ tl)).drop 8).take 4 =
      leBytes 4 localVarSigTok.toNat :=
    take_drop_append (by simp only [List.length_append, leBytes_length]) (leBytes_length 4 _)
  simp only [List.append_assoc] at hcode hlocals
  simp only [fatHeader, hflags, hstack, hcode, hlocals, ofNat_leNat_leBytes_u16,
    ofNat_leNat_leBytes_u32]

/-- A fat header is read from the first twelve bytes, and it takes that many. -/
theorem readFatHeader_run {bytes : List UInt8} (hlen : 12 ≤ bytes.length) :
    readFatHeader.run (Reader.new bytes 0 bodyContext) =
      .ok (fatHeader bytes) ((Reader.new bytes 0 bodyContext).advance 12) := by
  obtain ⟨h, hrun⟩ := totalOn_fatHeader (Reader.new bytes 0 bodyContext) (by
    rw [Reader.cursor_rest, Reader.rest_new]
    exact hlen)
  obtain ⟨bs, hrest, _, _, hheader⟩ := reads_fatHeader _ _ _ hrun
  rw [Reader.cursor_rest, Reader.rest_new] at hrest
  rw [hrun, hrest, hheader]
  rfl

theorem readFatHeader_ok {bytes : List UInt8} {h : FatHeader} {r : Reader}
    (hrun : readFatHeader.run (Reader.new bytes 0 bodyContext) = .ok h r) :
    12 ≤ bytes.length ∧ h = fatHeader bytes ∧
      r = (Reader.new bytes 0 bodyContext).advance 12 := by
  obtain ⟨bs, hrest, hr, hlen, _⟩ := reads_fatHeader _ _ _ hrun
  rw [Reader.cursor_rest, Reader.rest_new] at hrest
  have hle : 12 ≤ bytes.length := by
    rw [hrest, List.length_append]
    omega
  rw [readFatHeader_run hle] at hrun
  cases hrun
  exact ⟨hle, rfl, rfl⟩

/-- The body a fat header and the parts after it make up. -/
def FatHeader.body (h : FatHeader) (bytes : List UInt8) (codeRva : UInt32) (sections : Sections)
    (totalSize : Nat) (headerDiagnostics : List Diagnostic) : MethodBody where
  kind := .fat
  flags := h.flags
  maxStack := h.maxStack
  code := (bytes.drop h.size).take h.codeSize
  codeRva := codeRva + UInt32.ofNat h.size
  localVarSig := h.localVarSig
  exceptionHandlers := sections.handlers
  unknownSections := sections.unknown
  headerDwords := h.headerDwords
  totalSize := totalSize
  diagnostics := headerDiagnostics ++ sections.diagnostics

/-- What a fat body that is read consists of. -/
theorem parseFat_ok_iff {bytes : List UInt8} {codeRva : UInt32} {strictness : Strictness}
    {body : MethodBody} {r : Reader} :
    (parseFat codeRva strictness).run (Reader.new bytes 0 bodyContext) = .ok body r ↔
      12 ≤ bytes.length ∧ (fatHeader bytes).codeEnd ≤ bytes.length ∧ ∃ ds sections,
        checkHeaderSize strictness (fatHeader bytes).headerDwords = .ok ds ∧
        checkLocalVarSig strictness (fatHeader bytes).localVarSig = .ok () ∧
        (readSections strictness (fatHeader bytes).flags).run
          ((Reader.new bytes 0 bodyContext).moveTo (fatHeader bytes).codeEnd) =
            .ok sections r ∧
        body = (fatHeader bytes).body bytes codeRva sections r.pos ds := by
  have hdata : (Reader.new bytes 0 bodyContext).data = bytes := rfl
  have hmove : ((Reader.new bytes 0 bodyContext).advance 12).moveTo (fatHeader bytes).size =
      (Reader.new bytes 0 bodyContext).moveTo (fatHeader bytes).size := rfl
  rw [parseFat_eq, run_bind_ok_iff]
  constructor
  · rintro ⟨h, r1, hheader, hrun⟩
    -- the steps of the source, one after another
    obtain ⟨hlen, rfl, rfl⟩ := readFatHeader_ok hheader
    obtain ⟨ds, r2, hcheck, hrun⟩ := run_bind_ok_iff.mp hrun
    obtain ⟨hds, rfl⟩ := ofExcept_ok_iff.mp hcheck
    obtain ⟨_, r3, hseek, hrun⟩ := run_bind_ok_iff.mp hrun
    obtain ⟨hsize, rfl⟩ := Reader.seek_ok_iff.mp hseek
    rw [Reader.advance_data, hdata] at hsize
    rw [hmove] at hrun
    obtain ⟨code, r4, htake, hrun⟩ := run_bind_ok_iff.mp hrun
    obtain ⟨hcode, rfl, rfl⟩ := Reader.take_ok_iff.mp htake
    rw [Reader.moveTo_remaining hsize, hdata] at hcode
    rw [Reader.moveTo_rest hsize, Reader.moveTo_advance hsize, hdata] at hrun
    obtain ⟨_, r5, hsig, hrun⟩ := run_bind_ok_iff.mp hrun
    obtain ⟨hlocals, rfl⟩ := ofExcept_ok_iff.mp hsig
    obtain ⟨sections, r6, hsections, hrun⟩ := run_bind_ok_iff.mp hrun
    cases hrun
    refine ⟨hlen, ?_, ds, sections, hds, hlocals, hsections, rfl⟩
    rw [FatHeader.codeEnd]
    omega
  · rintro ⟨hlen, hend, ds, sections, hds, hlocals, hsections, rfl⟩
    rw [FatHeader.codeEnd] at hend hsections
    have hsize : (fatHeader bytes).size ≤ (Reader.new bytes 0 bodyContext).data.length := by
      rw [hdata]
      omega
    refine ⟨fatHeader bytes, _, readFatHeader_run hlen, ?_⟩
    refine run_bind_ok_iff.mpr ⟨ds, _, ofExcept_ok_iff.mpr ⟨hds, rfl⟩, ?_⟩
    refine run_bind_ok_iff.mpr ⟨(), _, Reader.seek_ok_iff.mpr ⟨hsize, rfl⟩, ?_⟩
    rw [hmove]
    refine run_bind_ok_iff.mpr ⟨_, _, Reader.take_ok_iff.mpr ⟨?_, rfl, rfl⟩, ?_⟩
    · rw [Reader.moveTo_remaining hsize, hdata]
      omega
    · rw [Reader.moveTo_rest hsize, Reader.moveTo_advance hsize, hdata]
      refine run_bind_ok_iff.mpr ⟨(), _, ofExcept_ok_iff.mpr ⟨hlocals, rfl⟩, ?_⟩
      exact run_bind_ok_iff.mpr ⟨sections, r, hsections, rfl⟩

/-! ## Where the parts of a body stand -/

/-- The code range a complete header declares: where it starts and how long it is. -/
def codeRange? : List UInt8 → Option (Nat × Nat)
  | [] => none
  | first :: tl =>
      if first &&& 0x03 = 0x02 then some (1, (first >>> 2).toNat)
      else if first &&& 0x03 = 0x03 ∧ 12 ≤ (first :: tl).length then
        some ((fatHeader (first :: tl)).size, (fatHeader (first :: tl)).codeSize)
      else none

/-- A fat header that announces data sections. -/
def announcesSections : List UInt8 → Bool
  | [] => false
  | first :: tl => first &&& 0x03 == 0x03 && (fatHeader (first :: tl)).flags.moreSects

theorem MethodBody.parseWith_ok_iff {bytes : List UInt8} {codeRva : UInt32}
    {strictness : Strictness} {body : MethodBody} :
    MethodBody.parseWith bytes codeRva strictness = .ok body ↔
      ∃ r, (parseBody codeRva strictness).run (Reader.new bytes 0 bodyContext) = .ok body r := by
  unfold MethodBody.parseWith
  constructor
  · intro h
    split at h
    · rename_i body' r hrun
      cases h
      exact ⟨r, hrun⟩
    · cases h
  · rintro ⟨r, hrun⟩
    simp only [hrun]

theorem parseBody_run (first : UInt8) (tl : List UInt8) (codeRva : UInt32)
    (strictness : Strictness) :
    (parseBody codeRva strictness).run (Reader.new (first :: tl) 0 bodyContext) =
      (if first &&& 0x03 = 0x02 then parseTiny codeRva
        else if first &&& 0x03 = 0x03 then parseFat codeRva strictness
        else throw (Error.new .malformed 0 bodyContext)).run
          (Reader.new (first :: tl) 0 bodyContext) := by
  have hpeek := Reader.peekU8_run_cons (r := Reader.new (first :: tl) 0 bodyContext)
    (Reader.rest_new _ _ _)
  rw [parseBody, run_bind_of_ok hpeek]

/-- A tiny body is read without looking at the strictness. -/
theorem parseWith_tiny {first : UInt8} (hfirst : first &&& 0x03 = 0x02) (tl : List UInt8)
    (codeRva : UInt32) (s t : Strictness) :
    MethodBody.parseWith (first :: tl) codeRva s = MethodBody.parseWith (first :: tl) codeRva t := by
  unfold MethodBody.parseWith
  rw [parseBody_run, parseBody_run, if_pos hfirst, if_pos hfirst]

/-- A fat body that is read, through its parts. -/
theorem parseWith_fat_ok_iff {first : UInt8} (hfirst : first &&& 0x03 = 0x03) {tl : List UInt8}
    {codeRva : UInt32} {strictness : Strictness} {body : MethodBody} :
    MethodBody.parseWith (first :: tl) codeRva strictness = .ok body ↔
      ∃ r, (parseFat codeRva strictness).run (Reader.new (first :: tl) 0 bodyContext) =
        .ok body r := by
  have hne : first &&& 0x03 ≠ 0x02 := by
    rw [hfirst]
    decide
  simp only [MethodBody.parseWith_ok_iff, parseBody_run, if_neg hne, if_pos hfirst]

end Cildec
