import Cildec.Metadata.Extent
import Cildec.Metadata.RoundTrip
import Cildec.Tables.Moved

/-!
# A region at another offset

Where a region starts in the input shows in nothing but the offsets that are reported and the
bases of its parts.

* `Metadata.carries_parseAt`: the parse of a region that starts `b` bytes further on;
* `region_reads_alike`: its fields, rows, diagnostics and errors;
* `region_moves_inexactly`: what does not move with it.
-/

namespace Cildec

open Wire

def Span.moved (b : Nat) (span : Span) : Span := { span with base := satAdd span.base b }
def StringsHeap.moved (b : Nat) (heap : StringsHeap) : StringsHeap := ⟨heap.span.moved b⟩
def UserStringsHeap.moved (b : Nat) (heap : UserStringsHeap) : UserStringsHeap :=
  ⟨heap.span.moved b⟩
def BlobHeap.moved (b : Nat) (heap : BlobHeap) : BlobHeap := ⟨heap.span.moved b⟩
def GuidHeap.moved (b : Nat) (heap : GuidHeap) : GuidHeap := ⟨heap.span.moved b⟩

namespace Metadata

variable {b base : Nat} (s : Strictness)

/-! ## The root -/

theorem carries_versionString (versionAt : Nat) (field : List UInt8) :
    Carries (Error.moved b) (notesMoved b) (versionString s versionAt field)
      (versionString s (satAdd versionAt b) field) := by
  unfold versionString
  cases field.idxOf? 0 with
  | some stop => exact Carries.ok _
  | none => exact Carries.ite (fun _ => Carries.error _) fun _ => Carries.ok _

theorem carries_checkSignature (signature : UInt32) :
    Carries (Error.moved b) id (checkSignature base signature)
      (checkSignature (satAdd base b) signature) :=
  Carries.ite (fun _ => Carries.error _) fun _ => Carries.ok ()

theorem transports_readRoot :
    Transports (Reader.moved b) (Error.moved b) (notesMoved b) (readRoot s base)
      (readRoot s (satAdd base b)) := by
  refine Transports.bind Reader.transports_u32 fun signature _ _ _ => ?_
  refine Transports.bind (Transports.ofExcept (carries_checkSignature signature)) fun _ _ _ _ => ?_
  refine Transports.bind Reader.transports_u16 fun majorVersion _ _ _ => ?_
  refine Transports.bind Reader.transports_u16 fun minorVersion _ _ _ => ?_
  refine Transports.bind Reader.transports_u32 fun reserved _ _ _ => ?_
  refine Transports.bind Reader.transports_u32 fun versionLength _ _ _ => ?_
  refine Transports.bind Transports.get fun r _ _ _ => ?_
  refine Transports.bind (Reader.transports_take _) fun field _ _ _ => ?_
  rw [Reader.moved_absolute]
  refine Transports.bind (Transports.ofExcept (carries_versionString s r.absolute field))
    fun version _ _ _ => ?_
  refine Transports.bind Reader.transports_u16 fun flags _ _ _ => ?_
  refine Transports.bind Reader.transports_u16 fun streamCount _ _ _ => ?_
  exact Transports.pure _

/-! ## The directory -/

theorem transports_attempt {α : Type} {p : Read α}
    (hp : Transports (Reader.moved b) (Error.moved b) id p p) :
    Transports (Reader.moved b) (Error.moved b) id (attempt p) (attempt p) := by
  intro r
  rw [attempt_run, attempt_run, hp r]
  cases p.run r with
  | ok a r' => rfl
  | error e r' => rfl

theorem transports_directoryDword (entryAt : Nat) :
    Transports (Reader.moved b) (Error.moved b) id (directoryDword s entryAt)
      (directoryDword s (satAdd entryAt b)) := by
  refine Transports.bind (transports_attempt Reader.transports_u32) fun v _ _ _ => ?_
  cases v with
  | some v => exact Transports.pure (some v)
  | none => exact Transports.ite (fun _ => Transports.throw _) fun _ => Transports.pure none

theorem carries_streamName (nameAt : Nat) (rest : List UInt8) :
    Carries (Error.moved b) (fun x => (x.1, notesMoved b x.2)) (streamName s nameAt rest)
      (streamName s (satAdd nameAt b) rest) := by
  unfold streamName
  cases rest.idxOf? 0 with
  | some len => exact Carries.ok _
  | none => exact Carries.ite (fun _ => Carries.error _) fun _ => Carries.ok _

theorem carries_checkNameLength (nameAt : Nat) (name : List UInt8) :
    Carries (Error.moved b) id (checkNameLength s nameAt name)
      (checkNameLength s (satAdd nameAt b) name) :=
  Carries.ite (fun _ => Carries.error _) fun _ => Carries.ok ()

/-- The start of a stream is reported from the base, without saturation. -/
theorem carries_streamData (hroom : base + 2 ^ 32 + b ≤ usizeMax) (bytes : List UInt8)
    (offset size : UInt32) :
    Carries (Error.moved b) (notesMoved b) (streamData s bytes base offset size)
      (streamData s bytes (satAdd base b) offset size) := by
  have hoffset := offset.toNat_lt
  have hstart : satAdd base b + offset.toNat = satAdd (base + offset.toNat) b :=
    satAdd_add (by omega)
  simp only [streamData, hstart]
  refine Carries.ite (fun _ => ?_) fun _ => Carries.ok _
  exact Carries.ite (fun _ => Carries.error _) fun _ => Carries.ok _

theorem transports_readStream (hroom : base + 2 ^ 32 + b ≤ usizeMax) (bytes : List UInt8)
    (offset size : UInt32) :
    Transports (Reader.moved b) (Error.moved b) (notesMoved b)
      (readStream s bytes base offset size) (readStream s bytes (satAdd base b) offset size) := by
  refine Transports.bind Transports.get fun r _ _ _ => ?_
  rw [Reader.moved_absolute]
  refine Transports.bind (Transports.ofExcept (carries_streamName s r.absolute r.rest))
    fun name _ _ _ => ?_
  refine Transports.bind (Transports.ofExcept (carries_checkNameLength s r.absolute name.1))
    fun _ _ _ _ => ?_
  refine Transports.bind (Reader.transports_seek _) fun _ _ _ _ => ?_
  refine Transports.bind (Transports.ofExcept (carries_streamData s hroom bytes offset size))
    fun data _ _ _ => ?_
  have hnotes := Transports.pure (f := Reader.moved b) (g := Error.moved b) (h := notesMoved b)
    (({ nameBytes := name.1, offset, size, data := data.1 } : StreamHeader), name.2.2 ++ data.2)
  rwa [notesMoved, List.map_append] at hnotes

theorem transports_readDirectory (hroom : base + 2 ^ 32 + b ≤ usizeMax) (bytes : List UInt8) :
    ∀ count, Transports (Reader.moved b) (Error.moved b) (notesMoved b)
      (readDirectory s bytes base count) (readDirectory s bytes (satAdd base b) count)
  | 0 => Transports.pure ([], [])
  | count + 1 => by
      refine Transports.bind Transports.get fun r _ _ _ => ?_
      rw [Reader.moved_absolute]
      refine Transports.bind (transports_directoryDword s r.absolute) fun offset _ _ _ => ?_
      cases offset with
      | none => exact Transports.pure ([], [])
      | some offset =>
          refine Transports.bind (transports_directoryDword s r.absolute) fun size _ _ _ => ?_
          cases size with
          | none => exact Transports.pure ([], [])
          | some size =>
              refine Transports.bind (transports_readStream s hroom bytes offset size)
                fun stream _ _ _ => ?_
              refine Transports.bind (transports_readDirectory hroom bytes count)
                fun streams _ _ _ => ?_
              have hnotes := Transports.pure (f := Reader.moved b) (g := Error.moved b)
                (h := notesMoved b) (stream.1 :: streams.1, stream.2 ++ streams.2)
              rwa [notesMoved, List.map_append] at hnotes

/-! ## The streams by name -/

/-- The table stream that is remembered, `b` bytes further on. -/
def tableRoleMoved (b : Nat) (found : List UInt8 × Nat × Bool) : List UInt8 × Nat × Bool :=
  (found.1, satAdd found.2.1 b, found.2.2)

def Roles.hasSeen (roles : Roles) (name : List UInt8) : Bool := roles.seen.any (· == name)

/-- The roles of the same streams `b` bytes further on: a heap without a stream stays empty. -/
def Roles.moved (b : Nat) (roles : Roles) : Roles where
  strings := if roles.hasSeen stringsName then roles.strings.moved b else roles.strings
  userStrings :=
    if roles.hasSeen userStringsName then roles.userStrings.moved b else roles.userStrings
  blobs := if roles.hasSeen blobName then roles.blobs.moved b else roles.blobs
  guids := if roles.hasSeen guidName then roles.guids.moved b else roles.guids
  tableStream := roles.tableStream.map (tableRoleMoved b)
  seen := roles.seen
  hasPdbStream := roles.hasPdbStream

theorem assign_hasPdbStream (roles : Roles) (stream : StreamHeader) (streamBase : Nat) :
    (roles.assign stream streamBase).hasPdbStream =
      (roles.hasPdbStream || stream.nameBytes == pdbName) := by
  by_cases hpdb : stream.nameBytes = pdbName
  · rw [Roles.assign, hpdb, beq_self_eq_true, Bool.or_true]
    rfl
  · rw [beq_eq_false_iff_ne.mpr hpdb, Bool.or_false]
    simp only [Roles.assign, if_neg hpdb]
    split_ifs <;> rfl

theorem assign_hasSeen (roles : Roles) (stream : StreamHeader) (streamBase : Nat)
    (name : List UInt8) : (roles.assign stream streamBase).hasSeen name =
      (roles.hasSeen name || stream.nameBytes == name) := by
  rw [Roles.hasSeen, assign_seen, List.any_append, List.any_cons, List.any_nil, Bool.or_false]
  rfl

/-- A heap moves with its stream, whether or not this is the stream. -/
theorem moved_of_assigned {α : Type} (move : α → α) (seen : Bool) (name streamName : List UInt8)
    (new old : α) :
    (if (seen || streamName == name) = true then move (if streamName = name then new else old)
      else if streamName = name then new else old) =
    if streamName = name then move new else if seen = true then move old else old := by
  by_cases heq : streamName = name
  · rw [beq_iff_eq.mpr heq, Bool.or_true, if_pos rfl, if_pos heq, if_pos heq]
  · rw [beq_eq_false_iff_ne.mpr heq, Bool.or_false, if_neg heq, if_neg heq]

attribute [ext] Roles

/-- The role of a stream moves with it. -/
theorem assign_moved (roles : Roles) (stream : StreamHeader) (streamBase : Nat) :
    (roles.moved b).assign stream (satAdd streamBase b) =
      (roles.assign stream streamBase).moved b := by
  -- a heap moves once its stream has been seen, the table stream with what is remembered of it
  ext : 1
  · simp only [assign_strings, Roles.moved, assign_hasSeen, moved_of_assigned]
    rfl
  · simp only [assign_userStrings, Roles.moved, assign_hasSeen, moved_of_assigned]
    rfl
  · simp only [assign_blobs, Roles.moved, assign_hasSeen, moved_of_assigned]
    rfl
  · simp only [assign_guids, Roles.moved, assign_hasSeen, moved_of_assigned]
    rfl
  · simp only [assign_tableStream, Roles.moved]
    by_cases h : stream.isTables
    · rw [if_pos h, if_pos h]
      cases roles.tableStream with
      | none => rfl
      | some found => rfl
    · rw [if_neg h, if_neg h]
  · simp only [assign_seen, Roles.moved]
  · simp only [assign_hasPdbStream, Roles.moved]

/-- The roles and the diagnostics of a loop, `b` bytes further on. -/
def rolesMoved (b : Nat) (x : Roles × List Diagnostic) : Roles × List Diagnostic :=
  (x.1.moved b, x.2.map (Diagnostic.moved b))

theorem carries_assignStream (roles : Roles) (stream : StreamHeader) :
    Carries (Error.moved b) (rolesMoved b) (assignStream s base roles stream)
      (assignStream s (satAdd base b) (roles.moved b) stream) := by
  have hseen : (roles.moved b).seen = roles.seen := rfl
  simp only [assignStream, hseen, satAdd_right_comm base b, assign_moved]
  refine Carries.ite (fun _ => ?_) fun _ => Carries.ok _
  exact Carries.ite (fun _ => Carries.error _) fun _ => Carries.ok _

theorem carries_assignStreams :
    ∀ (streams : List StreamHeader) (roles : Roles),
      Carries (Error.moved b) (rolesMoved b) (assignStreams s base streams roles)
        (assignStreams s (satAdd base b) streams (roles.moved b))
  | [], roles => Carries.ok (roles, [])
  | stream :: streams, roles => by
      refine Carries.bind (carries_assignStream s roles stream) fun x _ => ?_
      refine Carries.bind (carries_assignStreams streams x.1) fun y _ => ?_
      have hnotes := Carries.ok (ε := Error) (g := Error.moved b) (h := rolesMoved b)
        (y.1, x.2 ++ y.2)
      rwa [rolesMoved, List.map_append] at hnotes

/-- The names that the loop has seen. -/
theorem mem_assignStreams_seen {name : List UInt8} (streams : List StreamHeader) :
    ∀ {roles : Roles} {x : Roles × List Diagnostic}, assignStreams s base streams roles = .ok x →
      (name ∈ x.1.seen ↔ name ∈ roles.seen ∨ ∃ stream ∈ streams, stream.nameBytes = name) := by
  induction streams with
  | nil =>
      intro roles x hok
      cases hok
      simp
  | cons stream streams ih =>
      intro roles x hok
      obtain ⟨y, hfirst, hok⟩ := ok_bind_iff.mp hok
      obtain ⟨z, hrest, hok⟩ := ok_bind_iff.mp hok
      cases hok
      rw [ih hrest]
      simp only [List.mem_cons, exists_eq_or_imp]
      rcases assignStream_ok hfirst with ⟨hseen, hroles⟩ | ⟨_, hroles⟩
      · rw [hroles]
        constructor
        · rintro (h | h)
          · exact .inl h
          · exact .inr (.inr h)
        · rintro (h | rfl | h)
          · exact .inl h
          · exact .inl hseen
          · exact .inr h
      · rw [hroles, assign_seen, List.mem_append, List.mem_singleton, or_assoc,
          eq_comm (a := name)]

/-- A table stream is found exactly where one of the streams has its name. -/
theorem tableStream_isSome_iff {streams : List StreamHeader} {x : Roles × List Diagnostic}
    (hok : assignStreams s base streams Roles.none = .ok x) :
    x.1.tableStream.isSome ↔ ∃ stream ∈ streams, stream.isTables := by
  rw [assignStreams_tableStream streams hok fun _ => ⟨List.not_mem_nil, List.not_mem_nil⟩]
  show (Option.map _ _).isSome ↔ _
  rw [Option.isSome_map, List.find?_isSome]

/-! ## The table stream -/

/-- The tables of the same region `b` bytes further on: those of no table stream stay empty. -/
def tablesMoved (b : Nat) (present : Bool) (t : Tables) : Tables :=
  if present then t.moved b else t

theorem carries_parseTables (tableStream : Option (List UInt8 × Nat × Bool))
    (ds : List Diagnostic)
    (hroom : ∀ found ∈ tableStream, found.2.1 + 6 + b ≤ usizeMax ∧
      found.2.1 + found.1.length + b ≤ usizeMax) :
    Carries (Error.moved b)
      (fun x => (tablesMoved b tableStream.isSome x.1, x.2.map (Diagnostic.moved b)))
      (parseTables s base tableStream ds)
      (parseTables s (satAdd base b) (tableStream.map (tableRoleMoved b))
        (ds.map (Diagnostic.moved b))) := by
  cases tableStream with
  | none => exact Carries.ite (fun _ => Carries.error _) fun _ => Carries.ok _
  | some found =>
      obtain ⟨hbits, hdata⟩ := hroom found rfl
      exact Tables.carries_parse found.2.2 s ds hbits hdata

/-- Four gigabytes for the offset of the table stream and four for its bytes. -/
theorem tableStream_room (hroom : base + 2 ^ 33 + b ≤ usizeMax) {bytes : List UInt8}
    {count : Nat} {r r' : Reader} {x : List StreamHeader × List Diagnostic}
    {roles : Roles × List Diagnostic}
    (hdirectory : (readDirectory s bytes base count).run r = .ok x r')
    (hroles : assignStreams s base x.1 Roles.none = .ok roles) :
    ∀ found ∈ roles.1.tableStream, found.2.1 + 6 + b ≤ usizeMax ∧
      found.2.1 + found.1.length + b ≤ usizeMax := by
  intro found hfound
  obtain ⟨stream, hmem, rfl⟩ := tableStream_mem hroles hfound
  obtain ⟨ds, hdata⟩ := readDirectory_streamData count hdirectory stream hmem
  have hlength := streamData_length hdata
  have hoffset := stream.offset.toNat_lt
  have hsize := stream.size.toNat_lt
  have hbase : satAdd base stream.offset.toNat ≤ base + stream.offset.toNat := Nat.min_le_left _ _
  show satAdd base stream.offset.toNat + 6 + b ≤ usizeMax ∧
    satAdd base stream.offset.toNat + stream.data.length + b ≤ usizeMax
  omega

end Metadata

/-! ## The region -/

namespace Metadata

/-- The region has a stream of this name. -/
def hasStream (m : Metadata) (name : List UInt8) : Bool := m.streams.any (·.nameBytes == name)

/-- The region has a table stream. -/
def hasTables (m : Metadata) : Bool := m.streams.any StreamHeader.isTables

/-- The same region `b` bytes further on in the input. -/
def moved (b : Nat) (m : Metadata) : Metadata :=
  { m with
    base := satAdd m.base b
    diagnostics := m.diagnostics.map (Diagnostic.moved b)
    strings := if m.hasStream stringsName then m.strings.moved b else m.strings
    userStrings := if m.hasStream userStringsName then m.userStrings.moved b else m.userStrings
    blobs := if m.hasStream blobName then m.blobs.moved b else m.blobs
    guids := if m.hasStream guidName then m.guids.moved b else m.guids
    tables := tablesMoved b m.hasTables m.tables }

variable {b base : Nat} (s : Strictness)

/-- What the region has is what the loop over its streams has seen. -/
theorem moved_assemble {bytes : List UInt8} {root : Root} {streams : List StreamHeader}
    {roles : Roles × List Diagnostic} (hroles : assignStreams s base streams Roles.none = .ok roles)
    (tables : Tables × List Diagnostic) :
    (assemble bytes base s root streams roles.1 tables).moved b =
      assemble bytes (satAdd base b) s root streams (roles.1.moved b)
        (tablesMoved b roles.1.tableStream.isSome tables.1,
          tables.2.map (Diagnostic.moved b)) := by
  have hstream : ∀ name, streams.any (·.nameBytes == name) = roles.1.hasSeen name := by
    intro name
    have hseen := @mem_assignStreams_seen base s name streams _ _ hroles
    rw [Bool.eq_iff_iff, Roles.hasSeen, List.any_eq_true, List.any_eq_true]
    simp only [beq_iff_eq, exists_eq_right, hseen, Roles.none, List.not_mem_nil, false_or]
  have htables : streams.any StreamHeader.isTables = roles.1.tableStream.isSome := by
    rw [Bool.eq_iff_iff, tableStream_isSome_iff s hroles, List.any_eq_true]
  simp only [moved, assemble, hasStream, hasTables, Roles.moved, hstream, htables]

theorem transports_parseRegion (hroom : base + 2 ^ 33 + b ≤ usizeMax) (bytes : List UInt8) :
    Transports (Reader.moved b) (Error.moved b) (moved b) (parseRegion bytes base s)
      (parseRegion bytes (satAdd base b) s) := by
  refine Transports.bind (transports_readRoot s) fun root _ _ _ => ?_
  refine Transports.bind (transports_readDirectory s (by omega) bytes _)
    fun directory _ _ hdirectory => ?_
  refine Transports.bind (Transports.ofExcept (carries_assignStreams s directory.1 Roles.none))
    fun roles _ _ hrun => ?_
  obtain ⟨hroles, _⟩ := ofExcept_ok_iff.mp hrun
  have hparse := @carries_parseTables b base s roles.1.tableStream (root.2 ++ directory.2 ++ roles.2)
    (tableStream_room s hroom hdirectory hroles)
  simp only [List.map_append] at hparse
  refine Transports.bind (Transports.ofExcept hparse) fun tables _ _ _ => ?_
  have hpure := Transports.pure (f := Reader.moved b) (g := Error.moved b) (h := moved b)
    (assemble bytes base s root.1 directory.1 roles.1 tables)
  rwa [moved_assemble s hroles] at hpure

theorem carries_parseAt (hroom : base + 2 ^ 33 + b ≤ usizeMax) (bytes : List UInt8) :
    Carries (Error.moved b) (moved b) (parseAt bytes base s) (parseAt bytes (satAdd base b) s) := by
  have hnew : (Reader.new bytes base metadataContext).moved b =
      Reader.new bytes (satAdd base b) metadataContext := rfl
  have hregion := transports_parseRegion s hroom bytes (Reader.new bytes base metadataContext)
  rw [hnew] at hregion
  unfold parseAt
  rw [hregion]
  cases (parseRegion bytes base s).run (Reader.new bytes base metadataContext) with
  | ok m r => rfl
  | error e r => rfl

/-! ## What moves -/

/-- A root that counts two streams. -/
def twoEntries : List UInt8 :=
  [0x42, 0x53, 0x4A, 0x42, 1, 0, 1, 0, 0, 0, 0, 0, 4, 0, 0, 0, 0x76, 0x34, 0, 0, 0, 0, 2, 0]

/-- An entry of an empty stream with a name. -/
def emptyEntry (name : List UInt8) : Nat × NamedStream := (0, ⟨name, []⟩)

/-- A directory whose first name has `n` bytes and whose second name is not terminated. -/
def longNamed (n : Nat) : List UInt8 :=
  twoEntries ++ (entryBytes (emptyEntry (List.replicate n 0x61)) ++
    (leBytes 4 0 ++ (leBytes 4 0 ++ [0x61])))

theorem streamData_nothing (bytes : List UInt8) (base : Nat) :
    streamData .permissive bytes base 0 0 = .ok ([], []) := by
  have hslice : slice? bytes 0 (0 + 0) = some [] := slice?_of_le (Nat.zero_le _)
  have hzero : (0 : UInt32).toNat = 0 := rfl
  have hsum : satAdd 0 0 = 0 := rfl
  simp only [Nat.add_zero] at hslice
  simp only [streamData, hzero, hsum, Nat.zero_min, hslice]
  rfl

/-- An entry of an empty stream, in front of the rest of the directory. -/
theorem readDirectory_emptyEntry {bytes rest name : List UInt8} {base k count advance : Nat}
    {ds : List Diagnostic} {x : List StreamHeader × List Diagnostic} {r' : Reader}
    (hdrop : bytes.drop k = leBytes 4 0 ++ (leBytes 4 0 ++ rest))
    (hname : streamName .permissive (satAdd base (k + 8)) rest = .ok (name, advance, ds))
    (hle : k + 8 + advance ≤ bytes.length)
    (hrest : (readDirectory .permissive bytes base count).run
      ((Reader.new bytes base metadataContext).moveTo (k + 8 + advance)) = .ok x r') :
    (readDirectory .permissive bytes base (count + 1)).run
      ((Reader.new bytes base metadataContext).moveTo k) =
        .ok (⟨name, 0, 0, []⟩ :: x.1, ds ++ x.2) r' := by
  have hk : k ≤ (Reader.new bytes base metadataContext).data.length := by
    show k ≤ bytes.length
    omega
  have hk8 : k + 8 ≤ (Reader.new bytes base metadataContext).data.length := by
    show k + 8 ≤ bytes.length
    omega
  have hhere : ((Reader.new bytes base metadataContext).moveTo k).rest =
      leBytes 4 0 ++ (leBytes 4 0 ++ rest) := (Reader.moveTo_rest hk).trans hdrop
  have hbehind : ((Reader.new bytes base metadataContext).moveTo (k + 8)).rest = rest := by
    rw [Reader.moveTo_rest hk8, ← List.drop_drop]
    exact congrArg (List.drop 8) hdrop
  have h8 : 8 ≤ ((Reader.new bytes base metadataContext).moveTo k).remaining := by
    rw [Reader.moveTo_remaining hk]
    omega
  have hfields : leNat ((leBytes 4 0 ++ (leBytes 4 0 ++ rest)).take 4) = 0 ∧
      leNat (((leBytes 4 0 ++ (leBytes 4 0 ++ rest)).drop 4).take 4) = 0 := by
    rw [List.take_left' (leBytes_length 4 0), List.drop_left' (leBytes_length 4 0),
      List.take_left' (leBytes_length 4 0)]
    exact ⟨rfl, rfl⟩
  refine readDirectory_ok_iff.mpr (.inr ⟨h8, (⟨name, 0, 0, []⟩, ds), x, _, ?_, hrest, rfl⟩)
  rw [Reader.moveTo_advance hk, hhere, hfields.1, hfields.2]
  refine readStream_ok_iff.mpr ⟨name, advance, ds, [], [], ?_, ?_, ?_,
    streamData_nothing bytes base, ?_, ?_⟩
  · rw [hbehind, Reader.absolute, Reader.moveTo_pos hk8]
    exact hname
  · exact if_neg fun h => Bool.false_ne_true h.2
  · rw [Reader.moveTo_pos hk8]
    exact hle
  · rw [List.append_nil]
    rfl
  · rw [Reader.moveTo_pos hk8, Reader.moveTo_moveTo]

/-- The second entry starts behind the padded name. -/
theorem longNamed_drop (n : Nat) : (longNamed n).drop (32 + nextMultipleOf4 (n + 1)) =
    leBytes 4 0 ++ (leBytes 4 0 ++ [0x61]) := by
  have hlength : (twoEntries ++ entryBytes (emptyEntry (List.replicate n 0x61))).length =
      32 + nextMultipleOf4 (n + 1) := by
    rw [List.length_append, Region.entryBytes_length, emptyEntry, List.length_replicate]
    show 24 + (8 + _) = _
    omega
  rw [longNamed, ← List.append_assoc, List.drop_left' hlength]

theorem longNamed_length (n : Nat) : (longNamed n).length = 41 + nextMultipleOf4 (n + 1) := by
  have hdrop := congrArg List.length (longNamed_drop n)
  rw [List.length_drop] at hdrop
  change _ = 9 at hdrop
  omega

/-- Its directory, whose second name runs to the end of the bytes. -/
theorem longNamed_directory (n base : Nat) :
    ∃ r', (readDirectory .permissive (longNamed n) base 2).run
        ((Reader.new (longNamed n) base metadataContext).moveTo 24) =
      .ok ([⟨List.replicate n 0x61, 0, 0, []⟩, ⟨[0x61], 0, 0, []⟩],
        [.new .streamNamePadding (satAdd base (40 + nextMultipleOf4 (n + 1))) 1]) r' := by
  have hlength := longNamed_length n
  have hdrop := longNamed_drop n
  have hfirst : (longNamed n).drop 24 = leBytes 4 0 ++ (leBytes 4 0 ++
      (paddedName (List.replicate n 0x61) ++ (leBytes 4 0 ++ (leBytes 4 0 ++ [0x61])))) := by
    have htwo : twoEntries.length = 24 := rfl
    rw [longNamed, List.drop_left' htwo, entryBytes]
    simp only [List.append_assoc]
    rfl
  have hnul : 0 ∉ List.replicate n (0x61 : UInt8) :=
    fun h => absurd (List.eq_of_mem_replicate h) (by decide)
  have hname := streamName_padded hnul .permissive (satAdd base 32)
    (leBytes 4 0 ++ (leBytes 4 0 ++ [0x61]))
  rw [List.length_replicate] at hname
  have hend : 32 + nextMultipleOf4 (n + 1) + 8 = 40 + nextMultipleOf4 (n + 1) := by omega
  have hlast : streamName .permissive (satAdd base (32 + nextMultipleOf4 (n + 1) + 8)) [0x61] =
      .ok ([0x61], 1, [.new .streamNamePadding (satAdd base (40 + nextMultipleOf4 (n + 1))) 1]) := by
    rw [hend]
    rfl
  have hnone : (readDirectory .permissive (longNamed n) base 0).run
      ((Reader.new (longNamed n) base metadataContext).moveTo
        (32 + nextMultipleOf4 (n + 1) + 8 + 1)) = .ok ([], []) _ := rfl
  have hsecond := readDirectory_emptyEntry hdrop hlast (by omega) hnone
  exact ⟨_, readDirectory_emptyEntry hfirst hname (by omega) hsecond⟩

theorem longNamed_root (n base : Nat) : ∃ root,
    (readRoot .permissive base).run (Reader.new (longNamed n) base metadataContext) =
        .ok (root, []) ((Reader.new (longNamed n) base metadataContext).moveTo 24) ∧
      root.streamCount = 2 := by
  have hversion : versionLength (longNamed n) = 4 := rfl
  have hfield : versionField (longNamed n) = [0x76, 0x34, 0, 0] := rfl
  have hlength := longNamed_length n
  refine ⟨declaredRoot (longNamed n) [0x76, 0x34], readRoot_ok_iff.mpr ⟨?_, rfl,
    ([0x76, 0x34], []), ?_, rfl, ?_⟩, rfl⟩
  · omega
  · rw [hfield]
    rfl
  · rw [hversion]

/-- The offset of its diagnostic is as far on as the first name is long. -/
theorem longNamed_diagnostics {n : Nat} (base : Nat) (hn : n ≠ 1) :
    ∃ m, parseAt (longNamed n) base .permissive = .ok m ∧
      m.diagnostics =
        [.new .streamNamePadding (satAdd base (40 + nextMultipleOf4 (n + 1))) 1] := by
  obtain ⟨root, hroot, hcount⟩ := longNamed_root n base
  obtain ⟨r', hdirectory⟩ := longNamed_directory n base
  -- the names differ, so neither stream is dropped
  have hnodup : [List.replicate n (0x61 : UInt8), [0x61]].Nodup := by
    rw [List.nodup_cons, List.mem_singleton]
    refine ⟨fun heq => hn ?_, List.pairwise_singleton _ _⟩
    have := congrArg List.length heq
    rwa [List.length_replicate] at this
  obtain ⟨roles, hroles⟩ := assignStreams_distinct .permissive base
    [⟨List.replicate n 0x61, 0, 0, []⟩, ⟨[0x61], 0, 0, []⟩] Roles.none hnodup
    fun _ _ => List.not_mem_nil
  have hother : StreamHeader.isTables ⟨List.replicate n 0x61, 0, 0, []⟩ = false := by
    have hhead : ∀ tl, List.replicate n (0x61 : UInt8) ≠ 0x23 :: tl := by
      intro tl heq
      have hmem : (0x23 : UInt8) ∈ List.replicate n 0x61 := heq ▸ List.mem_cons_self
      exact absurd (List.eq_of_mem_replicate hmem) (by decide)
    rw [StreamHeader.isTables, Bool.or_eq_false_iff, beq_eq_false_iff_ne, beq_eq_false_iff_ne]
    exact ⟨hhead _, hhead _⟩
  have hnone : roles.tableStream = none := by
    rw [assignStreams_tableStream _ hroles fun _ => ⟨List.not_mem_nil, List.not_mem_nil⟩,
      List.find?_cons_of_neg (by rw [hother]; exact Bool.false_ne_true)]
    rfl
  have hcount' : (root, ([] : List Diagnostic)).1.streamCount.toNat = 2 := congrArg _ hcount
  have htables : parseTables .permissive base roles.tableStream
      [.new .streamNamePadding (satAdd base (40 + nextMultipleOf4 (n + 1))) 1] =
        .ok (Tables.empty,
          [.new .streamNamePadding (satAdd base (40 + nextMultipleOf4 (n + 1))) 1]) := by
    rw [hnone]
    rfl
  rw [← hcount'] at hdirectory
  exact ⟨_, parseAt_ok_iff.mpr ⟨_, _, _, r', _, _, hroot, hdirectory, hroles, htables, rfl⟩, rfl⟩

/-- Wherever a region starts it is read alike: what is found in it is the same, and what is
reported of it is as far on as the region is. The parts it does not have are empty in any place,
and rows that cannot be read fail as far on as the table stream is. -/
theorem region_reads_alike {b : Nat} (hb : b + 2 ^ 33 ≤ usizeMax) (bytes : List UInt8)
    (s : Strictness) :
    (∀ m, parseAt bytes 0 s = .ok m →
      parseAt bytes b s = .ok (m.moved b) ∧
      ∀ table, (m.moved b).tables.rowCount table = m.tables.rowCount table ∧
        ∀ rid, (m.moved b).tables.row table rid =
          if m.hasTables then carry (Error.moved b) id (m.tables.row table rid)
          else m.tables.row table rid) ∧
    ∀ e, parseAt bytes 0 s = .error e → parseAt bytes b s = .error (e.moved b) := by
  have hstart : satAdd 0 b = b := by
    unfold satAdd
    omega
  have hcarries := carries_parseAt s (show 0 + 2 ^ 33 + b ≤ usizeMax by omega) bytes
  rw [hstart] at hcarries
  constructor
  · intro m hm
    rw [hm] at hcarries
    refine ⟨hcarries, ?_⟩
    intro table
    -- without a table stream the tables are empty ones, whose base is 0 in any place
    cases htables : m.hasTables with
    | false =>
        have hsame : (m.moved b).tables = m.tables := by
          simp only [moved, tablesMoved, htables, Bool.false_eq_true, if_false]
        rw [hsame]
        exact ⟨rfl, fun _ => rfl⟩
    | true =>
        have hmoved : (m.moved b).tables = m.tables.moved b := by
          simp only [moved, tablesMoved, htables, if_true]
        rw [hmoved]
        exact ⟨rfl, fun rid => m.tables.carries_row table rid⟩
  · intro e he
    rw [he] at hcarries
    exact hcarries

theorem region_reads_alike_longNamed : ∃ m, parseAt (longNamed 0) 0 .permissive = .ok m ∧
    parseAt (longNamed 0) 16 .permissive = .ok (m.moved 16) := by
  obtain ⟨m, hm, _⟩ := longNamed_diagnostics 0 (show 0 ≠ 1 by decide)
  exact ⟨m, hm, ((region_reads_alike (by decide) (longNamed 0) .permissive).1 m hm).1⟩

/-- The heaps and tables of a region that has none start at 0 wherever the region does, and
an offset stays at the end of a `usize`. -/
theorem region_moves_inexactly :
    ((parseAt twoEntries 0 .permissive).toOption.map fun m =>
      (m.base, m.strings.span.base, m.tables.base)) = some (0, 0, 0) ∧
    ((parseAt twoEntries 16 .permissive).toOption.map fun m =>
      (m.base, m.strings.span.base, m.tables.base)) = some (16, 0, 0) ∧
    ∃ b m m', b + 2 ^ 33 ≤ usizeMax ∧
      parseAt (longNamed (2 ^ 33)) 0 .permissive = .ok m ∧
      parseAt (longNamed (2 ^ 33)) b .permissive = .ok m' ∧
      m'.diagnostics ≠ m.diagnostics.map fun d => { d with offset := d.offset.map (· + b) } := by
  refine ⟨by decide +kernel, by decide +kernel, usizeMax - 2 ^ 33, ?_⟩
  -- the second name ends 40 bytes behind 2 ^ 33, for which `b` leaves no room
  obtain ⟨m, hm, hds⟩ := longNamed_diagnostics 0 (show 2 ^ 33 ≠ 1 by decide)
  obtain ⟨m', hm', hds'⟩ := longNamed_diagnostics (usizeMax - 2 ^ 33) (show 2 ^ 33 ≠ 1 by decide)
  refine ⟨m, m', by decide, hm, hm', ?_⟩
  rw [hds, hds']
  decide

end Metadata

end Cildec
