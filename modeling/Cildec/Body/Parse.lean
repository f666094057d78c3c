import Cildec.Reader
import Cildec.Token

/-!
# Method bodies (`src/body.rs`)

A body is a tiny or a fat header, the code, and after a fat header with `MoreSects` a
chain of data sections, of which the exception tables are decoded. Every section takes at
least four bytes (`consumes_section`), so the chain ends.
-/

namespace Cildec

open Wire

def bodyContext : String := "method body"

def clauseContext : String := "exception clause"

/-- Which header form a body uses. -/
inductive HeaderKind where
  | tiny | fat
  deriving DecidableEq, Repr

/-- Flags from a fat method header, the format bits included. -/
structure FatFlags where
  bits : UInt16
  deriving DecidableEq, Repr

namespace FatFlags

/-- Data sections follow the code. -/
def moreSects (flags : FatFlags) : Bool := flags.bits &&& 0x0008 != 0

/-- Locals are zero-initialised on entry. -/
def initLocals (flags : FatFlags) : Bool := flags.bits &&& 0x0010 != 0

end FatFlags

/-- What an exception clause does. -/
inductive HandlerKind where
  | catchType (token : Token)
  | filter (filterOffset : UInt32)
  | finallyBlock
  | fault
  deriving DecidableEq, Repr

/-- One exception-handling clause. -/
structure ExceptionHandler where
  kind : HandlerKind
  tryOffset : UInt32
  tryLength : UInt32
  handlerOffset : UInt32
  handlerLength : UInt32
  rawFlags : UInt32
  deriving DecidableEq, Repr

/-- A method data section that is not decoded. -/
structure RawSection where
  kind : UInt8
  data : List UInt8
  deriving DecidableEq, Repr

/-- A decoded method body. -/
structure MethodBody where
  kind : HeaderKind
  flags : FatFlags
  maxStack : UInt16
  code : List UInt8
  codeRva : UInt32
  localVarSig : Option Token
  exceptionHandlers : List ExceptionHandler
  unknownSections : List RawSection
  headerDwords : UInt8
  totalSize : Nat
  diagnostics : List Diagnostic
  deriving DecidableEq, Repr

/-! ## Clauses -/

/-- The fields of a clause, as both section formats declare them. -/
structure Clause where
  flags : UInt32
  tryOffset : UInt32
  tryLength : UInt32
  handlerOffset : UInt32
  handlerLength : UInt32
  extra : UInt32
  deriving DecidableEq, Repr

def readFatClause : Read Clause := do
  let flags ← Reader.u32
  let tryOffset ← Reader.u32
  let tryLength ← Reader.u32
  let handlerOffset ← Reader.u32
  let handlerLength ← Reader.u32
  let extra ← Reader.u32
  return { flags, tryOffset, tryLength, handlerOffset, handlerLength, extra }

def readSmallClause : Read Clause := do
  let flags ← Reader.u16
  let tryOffset ← Reader.u16
  let tryLength ← Reader.u8
  let handlerOffset ← Reader.u16
  let handlerLength ← Reader.u8
  let extra ← Reader.u32
  return {
    flags := flags.toUInt32
    tryOffset := tryOffset.toUInt32
    tryLength := tryLength.toUInt32
    handlerOffset := handlerOffset.toUInt32
    handlerLength := handlerLength.toUInt32
    extra }

/-- Classifies a clause by the low three bits of its flags. -/
def Clause.kind (clause : Clause) (offset : Nat) : Result HandlerKind :=
  let low := clause.flags &&& 0x0007
  if low = 0x0000 then .ok (.catchType ⟨clause.extra⟩)
  else if low = 0x0001 then .ok (.filter clause.extra)
  else if low = 0x0002 then .ok .finallyBlock
  else if low = 0x0004 then .ok .fault
  else .error (Error.new .malformed offset clauseContext)

def Clause.toHandler (clause : Clause) (kind : HandlerKind) : ExceptionHandler where
  kind := kind
  tryOffset := clause.tryOffset
  tryLength := clause.tryLength
  handlerOffset := clause.handlerOffset
  handlerLength := clause.handlerLength
  rawFlags := clause.flags

/-- Reads one clause out of its bytes; `offset` is where they stand in the body. -/
def readClause (chunk : List UInt8) (fat : Bool) (offset : Nat) : Result ExceptionHandler :=
  match (if fat then readFatClause else readSmallClause).run
      (Reader.new chunk offset clauseContext) with
  | .error e _ => .error e
  | .ok clause _ =>
      match clause.kind offset with
      | .error e => .error e
      | .ok kind => .ok (clause.toHandler kind)

/-! ## Sections -/

/-- What the sections read so far have left. -/
structure Sections where
  diagnostics : List Diagnostic
  handlers : List ExceptionHandler
  unknown : List RawSection
  deriving DecidableEq, Repr

/-- The size of a clause in a fat or a small section. -/
def clauseSize (fat : Bool) : Nat := if fat then 24 else 12

/-- `DataSize`: three bytes in a fat section, one and two reserved bytes in a small one. -/
def readDataSize (fat : Bool) : Read Nat :=
  if fat then do
    let b ← Reader.take 3
    return leNat b
  else do
    let size ← Reader.u8
    let _reserved ← Reader.u16
    return size.toNat

/-- The size of the section body: `DataSize` counts the section header, but where that
leaves a partial clause and taking it without the header does not, it does not count it. -/
def sectionBodySize (strictness : Strictness) (isEh fat : Bool)
    (declared remaining sectionStart : Nat) : Result (Nat × List Diagnostic) :=
  let bodySize := declared - 4
  if isEh = true ∧ bodySize % clauseSize fat ≠ 0 ∧ declared % clauseSize fat = 0 ∧
      declared ≤ remaining then
    if strictness.isStrict then .error (Error.new .malformed sectionStart bodyContext)
    else .ok (declared, [.new .ehSectionSize sectionStart declared])
  else
    .ok (bodySize, [])

/-- A section body is cut to the bytes there are. -/
def clampBodySize (strictness : Strictness) (declared bodySize available sectionStart : Nat) :
    Result (Nat × List Diagnostic) :=
  if available < bodySize then
    if strictness.isStrict then .error (Error.new .truncated sectionStart bodyContext)
    else .ok (available, [.new .ehSectionSize sectionStart declared])
  else
    .ok (bodySize, [])

/-- A partial clause at the end of an exception table is ignored. -/
def checkWholeClauses (strictness : Strictness) (fat : Bool) (length sectionStart : Nat) :
    Result (List Diagnostic) :=
  if length % clauseSize fat ≠ 0 then
    if strictness.isStrict then .error (Error.new .malformed sectionStart bodyContext)
    else .ok [.new .ehSectionSize sectionStart length]
  else
    .ok []

/-- Reads the clauses of an exception table. -/
def readClauses (body : List UInt8) (fat : Bool) (sectionStart : Nat) :
    Result (List ExceptionHandler) :=
  (List.range (body.length / clauseSize fat)).mapM fun i =>
    readClause ((body.drop (i * clauseSize fat)).take (clauseSize fat)) fat
      (sectionStart + 4 + i * clauseSize fat)

/-- What a section body is: clauses of an exception table, or bytes to keep. -/
def decodeSection (strictness : Strictness) (kind : UInt8) (fat : Bool) (sectionStart : Nat)
    (body : List UInt8) : Result Sections :=
  if kind &&& 0x01 != 0 then do
    let diagnostics ← checkWholeClauses strictness fat body.length sectionStart
    let handlers ← readClauses body fat sectionStart
    return ⟨diagnostics, handlers, []⟩
  else
    return ⟨[], [], [⟨kind, body⟩]⟩

/-- Adds what one section has left. -/
def Sections.append (a b : Sections) : Sections :=
  ⟨a.diagnostics ++ b.diagnostics, a.handlers ++ b.handlers, a.unknown ++ b.unknown⟩

/-- Reads one section, and whether another one follows. -/
def readSection (strictness : Strictness) : Read (Sections × Bool) := do
  Reader.alignTo 0 4
  let r ← get
  let sectionStart := r.position
  let kind ← Reader.u8
  let fat := kind &&& 0x40 != 0
  let more := kind &&& 0x80 != 0
  let declared ← readDataSize fat
  let r ← get
  let (bodySize, sizeDiagnostics) ←
    Wire.ofExcept (sectionBodySize strictness (kind &&& 0x01 != 0) fat declared r.remaining sectionStart)
  let (bodySize, clampDiagnostics) ←
    Wire.ofExcept (clampBodySize strictness declared bodySize r.remaining sectionStart)
  let body ← Reader.take bodySize
  let decoded ← Wire.ofExcept (decodeSection strictness kind fat sectionStart body)
  return (Sections.append ⟨sizeDiagnostics ++ clampDiagnostics, [], []⟩ decoded, more)

/-! ## Progress -/

theorem consumes_alignTo (origin align : Nat) : Consumes 0 (Reader.alignTo origin align) :=
  Consumes.get_bind fun _ => (Reader.reads_skip _).consumes fun _ _ _ => Nat.zero_le _

theorem consumes_dataSize (fat : Bool) : Consumes 3 (readDataSize fat) := by
  cases fat with
  | true =>
      exact ((Reader.reads_take 3).map leNat).consumes fun bs _ ⟨_, _, _, hlen⟩ => by rw [hlen]
  | false =>
      have hu8 : Consumes 1 Reader.u8 := Reader.reads_u8.consumes fun bs b h => by rw [h]; simp
      have hu16 : Consumes 2 Reader.u16 := Reader.reads_u16.consumes fun bs v h => by rw [h]; simp
      exact hu8.bind fun size => hu16.bind fun _ => Consumes.pure size.toNat

/-- A section takes its four header bytes at least. -/
theorem consumes_section (strictness : Strictness) : Consumes 4 (readSection strictness) := by
  have hu8 : Consumes 1 Reader.u8 := Reader.reads_u8.consumes fun bs b h => by rw [h]; simp
  have htake (n : Nat) : Consumes 0 (Reader.take n) :=
    (Reader.reads_take n).consumes fun _ _ _ => Nat.zero_le _
  have hrest := (consumes_alignTo 0 4).bind fun _ => Consumes.get_bind fun r =>
    hu8.bind fun kind => (consumes_dataSize (kind &&& 0x40 != 0)).bind fun declared =>
      Consumes.get_bind fun r' =>
        (Consumes.ofExcept (sectionBodySize strictness (kind &&& 0x01 != 0) (kind &&& 0x40 != 0)
          declared r'.remaining r.position)).bind fun sized =>
        (Consumes.ofExcept (clampBodySize strictness declared sized.1 r'.remaining
          r.position)).bind fun clamped =>
        (htake clamped.1).bind fun body =>
        (Consumes.ofExcept (decodeSection strictness kind (kind &&& 0x40 != 0) r.position
          body)).bind fun decoded =>
        Consumes.pure ((Sections.append ⟨sized.2 ++ clamped.2, [], []⟩ decoded,
          kind &&& 0x80 != 0) : Sections × Bool)
  exact hrest

/-- A section brings the reader closer to its end. -/
theorem remaining_lt_of_section {strictness : Strictness} {r r' : Reader} {a : Sections × Bool}
    (h : (readSection strictness).run r = .ok a r') : r'.remaining < r.remaining := by
  obtain ⟨bs, hrest, _, hlen⟩ := consumes_section strictness _ _ _ h
  have hsplit : r.remaining = bs.length + r'.rest.length := Reader.remaining_of_rest hrest
  rw [Reader.rest_length] at hsplit
  omega

/-- Reads the chain of sections. -/
def parseSections (strictness : Strictness) (sections : Sections) : Read Sections := fun r =>
  match _h : (readSection strictness).run r with
  | .error e r' => .error e r'
  | .ok (decoded, more) r' =>
      let sections := sections.append decoded
      if !more then
        .ok sections r'
      else if r'.isEmpty then
        if strictness.isStrict then .error (Error.new .truncated r'.position bodyContext) r'
        else .ok sections r'
      else
        parseSections strictness sections r'
termination_by r => r.remaining
decreasing_by exact remaining_lt_of_section _h

/-! ## Bodies -/

/-- A header of another size than 3 dwords is tolerated. -/
def checkHeaderSize (strictness : Strictness) (headerDwords : UInt8) : Result (List Diagnostic) :=
  if headerDwords ≠ 3 then
    if strictness.isStrict then .error (Error.new .malformed 0 bodyContext)
    else .ok [.new .fatHeaderSize 0 headerDwords.toNat]
  else
    .ok []

/-- The locals token must name a stand-alone signature. -/
def checkLocalVarSig (strictness : Strictness) (localVarSig : Option Token) : Result Unit :=
  if strictness.isStrict && localVarSig.any fun t => t.table != some .standAloneSig then
    .error (Error.new .malformed 8 bodyContext)
  else
    .ok ()

/-- The sections of a body whose flags announce them. -/
def readSections (strictness : Strictness) (flags : FatFlags) : Read Sections :=
  if flags.moreSects then parseSections strictness ⟨[], [], []⟩ else return ⟨[], [], []⟩

def parseTiny (codeRva : UInt32) : Read MethodBody := do
  let header ← Reader.u8
  let codeSize := (header >>> 2).toNat
  let code ← Reader.take codeSize
  return {
    kind := .tiny
    flags := ⟨0⟩
    maxStack := 8
    code
    codeRva := codeRva + 1
    localVarSig := none
    exceptionHandlers := []
    unknownSections := []
    headerDwords := 0
    totalSize := 1 + codeSize
    diagnostics := [] }

def parseFat (codeRva : UInt32) (strictness : Strictness) : Read MethodBody := do
  let flagsAndSize ← Reader.u16
  let flags : FatFlags := ⟨flagsAndSize &&& 0x0FFF⟩
  let headerDwords := (flagsAndSize >>> 12).toUInt8
  let maxStack ← Reader.u16
  let codeSize ← Reader.u32
  let localVarSigTok ← Reader.u32
  let headerDiagnostics ← Wire.ofExcept (checkHeaderSize strictness headerDwords)
  -- a declared size below 3 dwords would overlap the fields just read
  let headerSize := max headerDwords.toNat 3 * 4
  Reader.seek headerSize
  let code ← Reader.take codeSize.toNat
  let localVarSig := if localVarSigTok = 0 then none else some ⟨localVarSigTok⟩
  Wire.ofExcept (checkLocalVarSig strictness localVarSig)
  let sections ← readSections strictness flags
  let r ← get
  return {
    kind := .fat
    flags
    maxStack
    code
    codeRva := codeRva + UInt32.ofNat headerSize
    localVarSig
    exceptionHandlers := sections.handlers
    unknownSections := sections.unknown
    headerDwords
    totalSize := r.position
    diagnostics := headerDiagnostics ++ sections.diagnostics }

def parseBody (codeRva : UInt32) (strictness : Strictness) : Read MethodBody := do
  let first ← Reader.peekU8
  if first &&& 0x03 = 0x02 then parseTiny codeRva
  else if first &&& 0x03 = 0x03 then parseFat codeRva strictness
  else throw (Error.new .malformed 0 bodyContext)

namespace MethodBody

/-- Parses a method body with an explicit strictness. -/
def parseWith (bytes : List UInt8) (codeRva : UInt32) (strictness : Strictness) :
    Result MethodBody :=
  match (parseBody codeRva strictness).run (Reader.new bytes 0 bodyContext) with
  | .ok body _ => .ok body
  | .error e _ => .error e

/-- Parses a method body in permissive mode. -/
def parse (bytes : List UInt8) (codeRva : UInt32) : Result MethodBody :=
  parseWith bytes codeRva .permissive

end MethodBody

end Cildec
