import Cildec.Metadata.Roles
import Cildec.Tables.Strict

/-!
# The metadata root in strict mode (`src/metadata.rs`)

The tests of the version field, the stream names, the stream ranges and the table stream
each leave a diagnostic where strict mode rejects. Three deviations leave none: a directory
that ends before its count is reached, a name of more than 32 bytes, and a directory
without a table stream. `DirectoryConforms` excludes them.

* `Metadata.parseAt_up`: strict mode only rejects more;
* `Metadata.parseAt_strict_iff`: when it rejects nothing that left no diagnostic.
-/

namespace Cildec

open Wire

namespace Metadata

/-! ## Single tests -/

theorem versionString_narrows (versionAt : Nat) (field : List UInt8) :
    Narrows (fun x => x.2 = []) (versionString .strict versionAt field)
      (versionString .permissive versionAt field) := by
  unfold versionString
  cases field.idxOf? 0 with
  | some stop => exact Narrows.refl _ _
  | none => exact Narrows.of_rejected (by simp)

theorem streamName_narrows (nameAt : Nat) (rest : List UInt8) :
    Narrows (fun x => x.2.2 = []) (streamName .strict nameAt rest)
      (streamName .permissive nameAt rest) := by
  unfold streamName
  cases rest.idxOf? 0 with
  | some len => exact Narrows.refl _ _
  | none => exact Narrows.of_rejected (by simp)

theorem streamData_narrows (bytes : List UInt8) (base : Nat) (offset size : UInt32) :
    Narrows (fun x => x.2 = []) (streamData .strict bytes base offset size)
      (streamData .permissive bytes base offset size) :=
  Narrows.test (by simp)

theorem checkNameLength_strict_iff (nameAt : Nat) (name : List UInt8) :
    checkNameLength .strict nameAt name = .ok () ↔ name.length ≤ 32 := by
  unfold checkNameLength
  by_cases h : 32 < name.length
  · simp [h, Strictness.isStrict]
  · simp [h, Nat.not_lt.mp h]

/-- The root of a region that strict mode reads is the one without a diagnostic. -/
theorem readRoot_narrows (base : Nat) :
    NarrowsM (fun x => x.2 = []) (readRoot .strict base) (readRoot .permissive base) := by
  unfold readRoot
  refine NarrowsM.seq _ fun _ => NarrowsM.seq _ fun _ => NarrowsM.seq _ fun _ =>
    NarrowsM.seq _ fun _ => NarrowsM.seq _ fun _ => NarrowsM.seq _ fun _ =>
    NarrowsM.seq _ fun r => NarrowsM.seq _ fun field => ?_
  refine (NarrowsM.ofExcept (versionString_narrows _ field)).bind ?_ fun _ => NarrowsM.refl _ _
  intro version s x s' hrun hquiet
  obtain ⟨_, _, _, hrun⟩ := run_bind_ok_iff.mp hrun
  obtain ⟨_, _, _, hrun⟩ := run_bind_ok_iff.mp hrun
  cases hrun
  exact hquiet

/-! ## The directory -/

/-- What an entry that is read consists of. -/
theorem readStream_ok_iff {strictness : Strictness} {bytes : List UInt8} {base : Nat}
    {offset size : UInt32} {r r' : Reader} {x : StreamHeader × List Diagnostic} :
    (readStream strictness bytes base offset size).run r = .ok x r' ↔
      ∃ name advance nameDs data dataDs,
        streamName strictness r.absolute r.rest = .ok (name, advance, nameDs) ∧
        checkNameLength strictness r.absolute name = .ok () ∧
        r.pos + advance ≤ r.data.length ∧
        streamData strictness bytes base offset size = .ok (data, dataDs) ∧
        x = (⟨name, offset, size, data⟩, nameDs ++ dataDs) ∧ r' = r.moveTo (r.pos + advance) := by
  constructor
  · intro hrun
    obtain ⟨_, _, hget, hrun⟩ := run_bind_ok_iff.mp hrun
    cases hget
    obtain ⟨⟨name, advance, nameDs⟩, _, hname, hrun⟩ := run_bind_ok_iff.mp hrun
    obtain ⟨hname', rfl⟩ := ofExcept_ok_iff.mp hname
    obtain ⟨_, _, hcheck, hrun⟩ := run_bind_ok_iff.mp hrun
    obtain ⟨hcheck', rfl⟩ := ofExcept_ok_iff.mp hcheck
    obtain ⟨_, _, hseek, hrun⟩ := run_bind_ok_iff.mp hrun
    obtain ⟨hle, rfl⟩ := Reader.seek_ok_iff.mp hseek
    obtain ⟨⟨data, dataDs⟩, _, hdata, hrun⟩ := run_bind_ok_iff.mp hrun
    obtain ⟨hdata', rfl⟩ := ofExcept_ok_iff.mp hdata
    cases hrun
    exact ⟨name, advance, nameDs, data, dataDs, hname', hcheck', hle, hdata', rfl, rfl⟩
  · rintro ⟨name, advance, nameDs, data, dataDs, hname, hcheck, hle, hdata, rfl, rfl⟩
    refine run_bind_ok_iff.mpr ⟨r, r, rfl, ?_⟩
    refine run_bind_ok_iff.mpr ⟨_, r, ofExcept_ok_iff.mpr ⟨hname, rfl⟩, ?_⟩
    refine run_bind_ok_iff.mpr ⟨(), r, ofExcept_ok_iff.mpr ⟨hcheck, rfl⟩, ?_⟩
    refine run_bind_ok_iff.mpr ⟨(), _, Reader.seek_ok_iff.mpr ⟨hle, rfl⟩, ?_⟩
    exact run_bind_ok_iff.mpr ⟨_, _, ofExcept_ok_iff.mpr ⟨hdata, rfl⟩, rfl⟩

theorem attempt_run (p : Read α) (r : Reader) :
    (attempt p).run r =
      match p.run r with
      | .ok a r' => .ok (some a) r'
      | .error _ r' => .ok none r' := rfl

theorem attempt_u32_some {r : Reader} (h : 4 ≤ r.remaining) :
    (attempt Reader.u32).run r =
      .ok (some (UInt32.ofNat (leNat (r.rest.take 4)))) (r.advance 4) := by
  have hrun : Reader.u32.run r = .ok (UInt32.ofNat (leNat (r.rest.take 4))) (r.advance 4) := by
    rw [Reader.u32, run_bind_of_ok (Reader.take_run h)]
    rfl
  rw [attempt_run, hrun]

theorem attempt_u32_none {r : Reader} (h : r.remaining < 4) :
    (attempt Reader.u32).run r = .ok none r := by
  have hrun : Reader.u32.run r = .error (r.err .truncated) r := by
    rw [Reader.u32, run_bind_of_error (Reader.take_run_error h)]
  rw [attempt_run, hrun]

/-- A dword of the directory that lies in the bytes. -/
theorem directoryDword_run {r : Reader} (h : 4 ≤ r.remaining) (strictness : Strictness)
    (entryAt : Nat) :
    (directoryDword strictness entryAt).run r =
      .ok (some (UInt32.ofNat (leNat (r.rest.take 4)))) (r.advance 4) := by
  rw [directoryDword, run_bind_of_ok (attempt_u32_some h)]
  rfl

/-- The offset and the size of an entry that lie in the bytes. -/
theorem directoryDwords_run {r : Reader} (h : 8 ≤ r.remaining) (strictness : Strictness)
    (entryAt : Nat) :
    (directoryDword strictness entryAt).run r =
        .ok (some (UInt32.ofNat (leNat (r.rest.take 4)))) (r.advance 4) ∧
      (directoryDword strictness entryAt).run (r.advance 4) =
        .ok (some (UInt32.ofNat (leNat ((r.rest.drop 4).take 4)))) (r.advance 8) := by
  have hremaining := Reader.remaining_advance 4 r
  have hrest : (r.advance 4).rest = r.rest.drop 4 := Cursor.rest_advance 4 r
  have hadvance : (r.advance 4).advance 4 = r.advance 8 := Cursor.advance_advance 4 4 r
  have hsecond := directoryDword_run (r := r.advance 4) (by omega) strictness entryAt
  rw [hrest, hadvance] at hsecond
  exact ⟨directoryDword_run (by omega) strictness entryAt, hsecond⟩

/-- Where the directory ends early, strict mode fails and permissive mode stops. -/
theorem directoryDword_ok_iff {r r' : Reader} (h : r.remaining < 4) {strictness : Strictness}
    {entryAt : Nat} {v : Option UInt32} :
    (directoryDword strictness entryAt).run r = .ok v r' ↔
      strictness.isStrict = false ∧ v = none ∧ r' = r := by
  rw [directoryDword, run_bind_of_ok (attempt_u32_none h)]
  cases strictness with
  | strict =>
      constructor
      · intro hrun
        cases hrun
      · rintro ⟨hfalse, _⟩
        cases hfalse
  | permissive =>
      constructor
      · intro hrun
        cases hrun
        exact ⟨rfl, rfl, rfl⟩
      · rintro ⟨_, rfl, rfl⟩
        rfl

/-- What a directory that is read consists of: an entry and the rest of it, or, in permissive
mode, nothing where fewer than eight bytes are left. -/
theorem readDirectory_ok_iff {strictness : Strictness} {bytes : List UInt8} {base count : Nat}
    {r r' : Reader} {x : List StreamHeader × List Diagnostic} :
    (readDirectory strictness bytes base (count + 1)).run r = .ok x r' ↔
      (r.remaining < 8 ∧ strictness.isStrict = false ∧ x = ([], []) ∧
        r' = if r.remaining < 4 then r else r.advance 4) ∨
      (8 ≤ r.remaining ∧ ∃ stream rest mid,
        (readStream strictness bytes base (UInt32.ofNat (leNat (r.rest.take 4)))
          (UInt32.ofNat (leNat ((r.rest.drop 4).take 4)))).run (r.advance 8) = .ok stream mid ∧
        (readDirectory strictness bytes base count).run mid = .ok rest r' ∧
        x = (stream.1 :: rest.1, stream.2 ++ rest.2)) := by
  have hget : (get : Read Reader).run r = .ok r r := rfl
  rw [readDirectory, run_bind_of_ok hget]
  -- the offset may be cut, or only the size
  by_cases h4 : r.remaining < 4
  · have h8 : r.remaining < 8 := by omega
    rw [run_bind_ok_iff, if_pos h4]
    simp only [directoryDword_ok_iff h4, h8, Nat.not_le.mpr h8, true_and, false_and, or_false]
    constructor
    · rintro ⟨v, r1, ⟨hstrict, rfl, rfl⟩, hrun⟩
      cases hrun
      exact ⟨hstrict, rfl, rfl⟩
    · rintro ⟨hstrict, rfl, rfl⟩
      exact ⟨none, r', ⟨hstrict, rfl, rfl⟩, rfl⟩
  · have hle := Nat.not_lt.mp h4
    have hfirst := directoryDword_run hle strictness r.absolute
    have hremaining := Reader.remaining_advance 4 r
    rw [run_bind_of_ok hfirst, if_neg h4]
    simp only
    by_cases h8 : r.remaining < 8
    · have hshort : (r.advance 4).remaining < 4 := by omega
      rw [run_bind_ok_iff]
      simp only [directoryDword_ok_iff hshort, h8, Nat.not_le.mpr h8, true_and, false_and,
        or_false]
      constructor
      · rintro ⟨v, r1, ⟨hstrict, rfl, rfl⟩, hrun⟩
        cases hrun
        exact ⟨hstrict, rfl, rfl⟩
      · rintro ⟨hstrict, rfl, rfl⟩
        exact ⟨none, _, ⟨hstrict, rfl, rfl⟩, rfl⟩
    · obtain ⟨_, hsecond⟩ := directoryDwords_run (Nat.not_lt.mp h8) strictness r.absolute
      rw [run_bind_of_ok hsecond]
      simp only [h8, Nat.not_lt.mp h8, true_and, false_and, false_or]
      constructor
      · intro hrun
        obtain ⟨stream, mid, hstream, hrun⟩ := run_bind_ok_iff.mp hrun
        obtain ⟨rest, r2, hdirectory, hrun⟩ := run_bind_ok_iff.mp hrun
        cases hrun
        exact ⟨stream, rest, mid, hstream, hdirectory, rfl⟩
      · rintro ⟨stream, rest, mid, hstream, hdirectory, rfl⟩
        exact run_bind_ok_iff.mpr ⟨stream, mid, hstream,
          run_bind_ok_iff.mpr ⟨rest, r', hdirectory, rfl⟩⟩

/-- An entry that strict mode reads is read alike in permissive mode. -/
theorem readStream_up {bytes : List UInt8} {base : Nat} {offset size : UInt32} {r r' : Reader}
    {x : StreamHeader × List Diagnostic}
    (hrun : (readStream .strict bytes base offset size).run r = .ok x r') :
    (readStream .permissive bytes base offset size).run r = .ok x r' := by
  obtain ⟨name, advance, nameDs, data, dataDs, hname, _, hle, hdata, rfl, rfl⟩ :=
    readStream_ok_iff.mp hrun
  refine readStream_ok_iff.mpr ⟨name, advance, nameDs, data, dataDs,
    (streamName_narrows _ _).up _ hname, ?_, hle, (streamData_narrows _ _ _ _).up _ hdata, rfl, rfl⟩
  simp [checkNameLength, Strictness.isStrict]

/-- A directory that strict mode reads is read alike in permissive mode. -/
theorem readDirectory_up {bytes : List UInt8} {base : Nat} (count : Nat) :
    ∀ {r r' : Reader} {x : List StreamHeader × List Diagnostic},
      (readDirectory .strict bytes base count).run r = .ok x r' →
        (readDirectory .permissive bytes base count).run r = .ok x r' := by
  induction count with
  | zero =>
      intro r r' x hrun
      exact hrun
  | succ count ih =>
      intro r r' x hrun
      rcases readDirectory_ok_iff.mp hrun with ⟨_, hstrict, _⟩ |
        ⟨h8, stream, rest, mid, hstream, hdirectory, rfl⟩
      · cases hstrict
      · exact readDirectory_ok_iff.mpr
          (.inr ⟨h8, stream, rest, mid, readStream_up hstream, ih hdirectory, rfl⟩)

/-- The names in a directory of `count` entries, when all of them are there. -/
def directoryNames : Nat → List UInt8 → Option (List (List UInt8))
  | 0, _ => some []
  | count + 1, bs =>
      if bs.length < 8 then none
      else match (bs.drop 8).idxOf? 0 with
        | none => none
        | some len => (directoryNames count (bs.drop (8 + nextMultipleOf4 (len + 1)))).map
            ((bs.drop 8).take len :: ·)

/-- An entry without a diagnostic is read in strict mode, unless its name is too long. -/
theorem readStream_strict_iff {bytes : List UInt8} {base : Nat} {offset size : UInt32}
    {r r' : Reader} {x : StreamHeader × List Diagnostic}
    (hrun : (readStream .permissive bytes base offset size).run r = .ok x r')
    (hquiet : x.2 = []) :
    (∃ len, r.rest.idxOf? 0 = some len ∧ x.1.nameBytes = r.rest.take len ∧
      r'.rest = r.rest.drop (nextMultipleOf4 (len + 1))) ∧
    ((readStream .strict bytes base offset size).run r = .ok x r' ↔ x.1.nameBytes.length ≤ 32) := by
  obtain ⟨name, advance, nameDs, data, dataDs, hname, _, hle, hdata, rfl, rfl⟩ :=
    readStream_ok_iff.mp hrun
  obtain ⟨rfl, rfl⟩ := List.append_eq_nil_iff.mp hquiet
  refine ⟨?_, ?_⟩
  · unfold streamName at hname
    cases hidx : r.rest.idxOf? 0 with
    | none =>
        rw [hidx] at hname
        cases hname
    | some len =>
        rw [hidx] at hname
        cases hname
        refine ⟨len, rfl, rfl, ?_⟩
        rw [Reader.moveTo_rest hle, Reader.rest, List.drop_drop]
  · rw [readStream_ok_iff]
    constructor
    · rintro ⟨name', _, _, _, _, _, hcheck, _, _, hx, _⟩
      have hsame : name = name' := congrArg (fun x => x.1.nameBytes) hx
      rw [← hsame] at hcheck
      exact (checkNameLength_strict_iff _ _).mp hcheck
    · intro hlen
      exact ⟨name, advance, [], data, [], (streamName_narrows _ _).down _ hname rfl,
        (checkNameLength_strict_iff _ _).mpr hlen, hle,
        (streamData_narrows _ _ _ _).down _ hdata rfl, rfl, rfl⟩

/-- A directory without a diagnostic is read in strict mode when all its entries are there
and none of their names is too long. -/
theorem readDirectory_strict_iff {bytes : List UInt8} {base : Nat} (count : Nat) :
    ∀ {r r' : Reader} {x : List StreamHeader × List Diagnostic},
      (readDirectory .permissive bytes base count).run r = .ok x r' → x.2 = [] →
        ((readDirectory .strict bytes base count).run r = .ok x r' ↔
          directoryNames count r.rest = some (x.1.map StreamHeader.nameBytes) ∧
            ∀ stream ∈ x.1, stream.nameBytes.length ≤ 32) ∧
        (∀ names, directoryNames count r.rest = some names →
          names = x.1.map StreamHeader.nameBytes) := by
  induction count with
  | zero =>
      intro r r' x hrun hquiet
      cases hrun
      refine ⟨iff_of_true rfl ⟨rfl, by simp⟩, ?_⟩
      intro names hnames
      cases hnames
      rfl
  | succ count ih =>
      intro r r' x hrun hquiet
      rcases readDirectory_ok_iff.mp hrun with ⟨h8, _, rfl, rfl⟩ |
        ⟨h8, stream, rest, mid, hstream, hdirectory, rfl⟩
      · have hnone : directoryNames (count + 1) r.rest = none := by
          rw [directoryNames, if_pos (by rwa [Reader.rest_length])]
        rw [hnone]
        refine ⟨iff_of_false ?_ ?_, ?_⟩
        · intro hstrict
          rcases readDirectory_ok_iff.mp hstrict with ⟨_, hfalse, _⟩ | ⟨hle, _⟩
          · cases hfalse
          · omega
        · rintro ⟨hfalse, _⟩
          cases hfalse
        · intro names hfalse
          cases hfalse
      · obtain ⟨hsq, hrq⟩ := List.append_eq_nil_iff.mp hquiet
        have hadvance : (r.advance 8).rest = r.rest.drop 8 := Cursor.rest_advance 8 r
        obtain ⟨⟨len, hidx, hname, hmid⟩, hlong⟩ := readStream_strict_iff hstream hsq
        rw [hadvance] at hidx hname hmid
        obtain ⟨hih, hnames⟩ := ih hdirectory hrq
        -- the entry is complete, so the bytes spell its name
        have hstep : directoryNames (count + 1) r.rest =
            (directoryNames count mid.rest).map (stream.1.nameBytes :: ·) := by
          rw [directoryNames, if_neg (by rw [Reader.rest_length]; omega), hidx, hmid,
            List.drop_drop, hname]
        rw [hstep]
        refine ⟨?_, ?_⟩
        · rw [List.forall_mem_cons, ← hlong, List.map_cons, Option.map_eq_some_iff]
          constructor
          · intro hstrict
            rcases readDirectory_ok_iff.mp hstrict with ⟨_, hfalse, _⟩ |
              ⟨_, stream', rest', mid', hstream', hdirectory', hx⟩
            · cases hfalse
            · have hs := readStream_up hstream'
              rw [hstream] at hs
              cases hs
              have hd := readDirectory_up count hdirectory'
              rw [hdirectory] at hd
              cases hd
              obtain ⟨hn, hall⟩ := hih.mp hdirectory'
              exact ⟨⟨_, hn, rfl⟩, hstream', hall⟩
          · rintro ⟨⟨tail, htail, _⟩, hstream', hall⟩
            have hdirectory' := hih.mpr ⟨(hnames tail htail) ▸ htail, hall⟩
            exact readDirectory_ok_iff.mpr
              (.inr ⟨h8, stream, rest, mid, hstream', hdirectory', rfl⟩)
        · intro names hmap
          obtain ⟨tail, htail, rfl⟩ := Option.map_eq_some_iff.mp hmap
          rw [hnames tail htail]
          rfl

/-! ## Streams by name -/

theorem assignStream_narrows (base : Nat) (roles : Roles) (stream : StreamHeader) :
    Narrows (fun x => x.2 = []) (assignStream .strict base roles stream)
      (assignStream .permissive base roles stream) :=
  Narrows.test (by simp)

theorem assignStreams_narrows (base : Nat) (streams : List StreamHeader) :
    ∀ roles, Narrows (fun x => x.2 = []) (assignStreams .strict base streams roles)
      (assignStreams .permissive base streams roles) := by
  induction streams with
  | nil =>
      intro roles
      exact Narrows.refl _ _
  | cons stream streams ih =>
      intro roles
      refine (assignStream_narrows base roles stream).bind ?_ fun assigned => ?_
      · intro assigned x hrun hquiet
        obtain ⟨rest, _, hpure⟩ := ok_bind_iff.mp hrun
        cases hpure
        exact (List.append_eq_nil_iff.mp hquiet).1
      · refine (ih assigned.1).bind ?_ fun _ => Narrows.refl _ _
        intro rest x hpure hquiet
        cases hpure
        exact (List.append_eq_nil_iff.mp hquiet).2

/-- There is a table stream when a stream has its name. -/
theorem assigned_tableStream_isSome {base : Nat} {streams : List StreamHeader}
    {x : Roles × List Diagnostic}
    (hok : assignStreams .permissive base streams Roles.none = .ok x) :
    x.1.tableStream.isSome = true ↔
      ∃ stream ∈ streams, stream.nameBytes = tablesName ∨ stream.nameBytes = uncompressedName := by
  rw [assignStreams_tableStream streams hok fun _ => ⟨List.not_mem_nil, List.not_mem_nil⟩]
  simp [Roles.none, List.find?_isSome, StreamHeader.isTables]

/-! ## The region -/

/-- The region its parts make up. -/
def assemble (bytes : List UInt8) (base : Nat) (strictness : Strictness) (root : Root)
    (streams : List StreamHeader) (roles : Roles) (tables : Tables × List Diagnostic) :
    Metadata where
  bytes := bytes
  base := base
  strictness := strictness
  diagnostics := tables.2
  majorVersion := root.majorVersion
  minorVersion := root.minorVersion
  flags := root.flags
  versionBytes := root.versionBytes
  streams := streams
  strings := roles.strings
  userStrings := roles.userStrings
  blobs := roles.blobs
  guids := roles.guids
  tables := tables.1
  hasPdbStream := roles.hasPdbStream

/-- What a region that is read consists of. -/
theorem parseAt_ok_iff {bytes : List UInt8} {base : Nat} {strictness : Strictness}
    {m : Metadata} :
    parseAt bytes base strictness = .ok m ↔
      ∃ root r1 directory r2 roles tables,
        (readRoot strictness base).run (Reader.new bytes base metadataContext) = .ok root r1 ∧
        (readDirectory strictness bytes base root.1.streamCount.toNat).run r1 =
          .ok directory r2 ∧
        assignStreams strictness base directory.1 Roles.none = .ok roles ∧
        parseTables strictness base roles.1.tableStream (root.2 ++ directory.2 ++ roles.2) =
          .ok tables ∧
        m = assemble bytes base strictness root.1 directory.1 roles.1 tables := by
  have hparse : parseAt bytes base strictness = .ok m ↔ ∃ r,
      (parseRegion bytes base strictness).run (Reader.new bytes base metadataContext) = .ok m r := by
    unfold parseAt
    constructor
    · intro h
      split at h
      · rename_i m' r hrun
        cases h
        exact ⟨r, hrun⟩
      · cases h
    · rintro ⟨r, hrun⟩
      simp only [hrun]
  rw [hparse]
  constructor
  · rintro ⟨r, hrun⟩
    obtain ⟨root, r1, hroot, hrun⟩ := run_bind_ok_iff.mp hrun
    obtain ⟨directory, r2, hdirectory, hrun⟩ := run_bind_ok_iff.mp hrun
    obtain ⟨roles, r3, hroles, hrest⟩ := run_bind_ok_iff.mp hrun
    obtain ⟨hroles', rfl⟩ := ofExcept_ok_iff.mp hroles
    obtain ⟨tables, r4, htables, hpure⟩ := run_bind_ok_iff.mp hrest
    obtain ⟨htables', rfl⟩ := ofExcept_ok_iff.mp htables
    cases hpure
    exact ⟨root, r1, directory, _, roles, tables, hroot, hdirectory, hroles', htables', rfl⟩
  · rintro ⟨root, r1, directory, r2, roles, tables, hroot, hdirectory, hroles, htables, rfl⟩
    refine ⟨r2, run_bind_ok_iff.mpr ⟨root, r1, hroot, ?_⟩⟩
    refine run_bind_ok_iff.mpr ⟨directory, r2, hdirectory, ?_⟩
    refine run_bind_ok_iff.mpr ⟨roles, r2, ofExcept_ok_iff.mpr ⟨hroles, rfl⟩, ?_⟩
    exact run_bind_ok_iff.mpr ⟨tables, r2, ofExcept_ok_iff.mpr ⟨htables, rfl⟩, rfl⟩

theorem parseTables_up {base : Nat} {tableStream : Option (List UInt8 × Nat × Bool)}
    {ds : List Diagnostic} {x : Tables × List Diagnostic}
    (h : parseTables .strict base tableStream ds = .ok x) :
    parseTables .permissive base tableStream ds = .ok x := by
  cases tableStream with
  | none => cases h
  | some stream => exact (Tables.parse_narrows _ _ _ _).up x h

theorem parseTables_appends (base : Nat) (strictness : Strictness)
    (tableStream : Option (List UInt8 × Nat × Bool)) :
    Commutes logged loggedSnd (parseTables strictness base tableStream) := by
  unfold parseTables
  cases tableStream with
  | none => exact Commutes.ite (Commutes.error _) (Commutes.ok fun _ _ => rfl)
  | some stream => exact Tables.parse_appends stream.1 stream.2.1 stream.2.2 strictness

/-- Strict mode wants a table stream, and one that leaves no diagnostic. -/
theorem parseTables_strict_iff {base : Nat} {tableStream : Option (List UInt8 × Nat × Bool)}
    {ds : List Diagnostic} {x : Tables × List Diagnostic}
    (h : parseTables .permissive base tableStream ds = .ok x) (hquiet : x.2 = []) :
    (∃ y, parseTables .strict base tableStream ds = .ok y) ↔ tableStream.isSome = true := by
  cases tableStream with
  | none =>
      refine iff_of_false ?_ (by simp)
      rintro ⟨y, hy⟩
      cases hy
  | some stream => exact iff_of_true ⟨x, (Tables.parse_narrows _ _ _ _).down x h hquiet⟩ rfl

/-- The length of the version field. -/
def versionLength (bytes : List UInt8) : Nat := leNat ((bytes.drop 12).take 4)

/-- The number of streams the root declares. -/
def streamCount (bytes : List UInt8) : Nat := leNat ((bytes.drop (18 + versionLength bytes)).take 2)

/-- The bytes from the stream directory on. -/
def directoryBytes (bytes : List UInt8) : List UInt8 := bytes.drop (20 + versionLength bytes)

/-- The version field. -/
def versionField (bytes : List UInt8) : List UInt8 := (bytes.drop 16).take (versionLength bytes)

/-- The root, by the place of its fields. -/
def declaredRoot (bytes : List UInt8) (versionBytes : List UInt8) : Root where
  majorVersion := UInt16.ofNat (leNat ((bytes.drop 4).take 2))
  minorVersion := UInt16.ofNat (leNat ((bytes.drop 6).take 2))
  versionBytes := versionBytes
  flags := UInt16.ofNat (leNat ((bytes.drop (16 + versionLength bytes)).take 2))
  streamCount := UInt16.ofNat (leNat ((bytes.drop (18 + versionLength bytes)).take 2))

/-- What a root that is read consists of. -/
theorem readRoot_ok_iff {bytes : List UInt8} {base : Nat} {strictness : Strictness}
    {x : Root × List Diagnostic} {r : Reader} :
    (readRoot strictness base).run (Reader.new bytes base metadataContext) = .ok x r ↔
      20 + versionLength bytes ≤ bytes.length ∧
      checkSignature base (UInt32.ofNat (leNat (bytes.take 4))) = .ok () ∧
      ∃ version, versionString strictness (satAdd base 16) (versionField bytes) = .ok version ∧
        x = (declaredRoot bytes version.1, version.2) ∧
        r = (Reader.new bytes base metadataContext).moveTo (20 + versionLength bytes) := by
  have hdata : (Reader.new bytes base metadataContext).data = bytes := rfl
  have hlength : (UInt32.ofNat (leNat ((bytes.drop 12).take 4))).toNat = versionLength bytes :=
    UInt32.toNat_ofNat_of_lt' (Reader.leNat_field_lt _ _ _)
  have hend : 16 + versionLength bytes + 2 = 18 + versionLength bytes := by omega
  have hend' : 18 + versionLength bytes + 2 = 20 + versionLength bytes := by omega
  rw [Reader.new_eq_moveTo]
  constructor
  · intro hrun
    -- the fields in the order of the source, each at its own offset
    obtain ⟨signature, r1, h1, hrun⟩ := run_bind_ok_iff.mp hrun
    obtain ⟨hle1, rfl, rfl⟩ := (Reader.u32_at_iff (Nat.zero_le _)).mp h1
    obtain ⟨_, _, hcheck, hrun⟩ := run_bind_ok_iff.mp hrun
    obtain ⟨hsignature, rfl⟩ := ofExcept_ok_iff.mp hcheck
    obtain ⟨_, _, h2, hrun⟩ := run_bind_ok_iff.mp hrun
    obtain ⟨hle2, rfl, rfl⟩ := (Reader.u16_at_iff hle1).mp h2
    obtain ⟨_, _, h3, hrun⟩ := run_bind_ok_iff.mp hrun
    obtain ⟨hle3, rfl, rfl⟩ := (Reader.u16_at_iff hle2).mp h3
    obtain ⟨_, _, h4, hrun⟩ := run_bind_ok_iff.mp hrun
    obtain ⟨hle4, _, rfl⟩ := (Reader.u32_at_iff hle3).mp h4
    obtain ⟨length, _, h5, hrun⟩ := run_bind_ok_iff.mp hrun
    obtain ⟨hle5, rfl, rfl⟩ := (Reader.u32_at_iff hle4).mp h5
    obtain ⟨_, _, hget, hrun⟩ := run_bind_ok_iff.mp hrun
    cases hget
    obtain ⟨field, _, h6, hrun⟩ := run_bind_ok_iff.mp hrun
    obtain ⟨hle6, rfl, rfl⟩ := (Reader.take_at_iff hle5).mp h6
    obtain ⟨version, _, h7, hrun⟩ := run_bind_ok_iff.mp hrun
    obtain ⟨hversion, rfl⟩ := ofExcept_ok_iff.mp h7
    obtain ⟨flags, _, h8, hrun⟩ := run_bind_ok_iff.mp hrun
    obtain ⟨hle8, rfl, rfl⟩ := (Reader.u16_at_iff hle6).mp h8
    obtain ⟨count, _, h9, hrun⟩ := run_bind_ok_iff.mp hrun
    obtain ⟨hle9, rfl, rfl⟩ := (Reader.u16_at_iff hle8).mp h9
    cases hrun
    rw [Reader.absolute, Reader.moveTo_pos hle5] at hversion
    simp only [hdata, hlength, hend, hend', Nat.zero_add, Nat.reduceAdd] at hle9 hversion ⊢
    exact ⟨hle9, hsignature, version, hversion, rfl, rfl⟩
  · rintro ⟨hle, hsignature, version, hversion, rfl, rfl⟩
    have hle' : 20 + versionLength bytes ≤ (Reader.new bytes base metadataContext).data.length := hle
    have hle4 : 16 ≤ (Reader.new bytes base metadataContext).data.length := by omega
    refine run_bind_ok_iff.mpr ⟨_, _,
      (Reader.u32_at_iff (Nat.zero_le _)).mpr ⟨by omega, rfl, rfl⟩, ?_⟩
    refine run_bind_ok_iff.mpr ⟨_, _, ofExcept_ok_iff.mpr ⟨hsignature, rfl⟩, ?_⟩
    refine run_bind_ok_iff.mpr ⟨_, _, (Reader.u16_at_iff (by omega)).mpr ⟨by omega, rfl, rfl⟩, ?_⟩
    refine run_bind_ok_iff.mpr ⟨_, _, (Reader.u16_at_iff (by omega)).mpr ⟨by omega, rfl, rfl⟩, ?_⟩
    refine run_bind_ok_iff.mpr ⟨_, _, (Reader.u32_at_iff (by omega)).mpr ⟨by omega, rfl, rfl⟩, ?_⟩
    refine run_bind_ok_iff.mpr ⟨_, _, (Reader.u32_at_iff (by omega)).mpr ⟨by omega, rfl, rfl⟩, ?_⟩
    refine run_bind_ok_iff.mpr ⟨_, _, rfl, ?_⟩
    simp only [hdata, hlength, Nat.zero_add, Nat.reduceAdd]
    refine run_bind_ok_iff.mpr ⟨_, _, (Reader.take_at_iff hle4).mpr ⟨by omega, rfl, rfl⟩, ?_⟩
    rw [Reader.absolute, Reader.moveTo_pos hle4]
    refine run_bind_ok_iff.mpr ⟨_, _, ofExcept_ok_iff.mpr ⟨hversion, rfl⟩, ?_⟩
    refine run_bind_ok_iff.mpr ⟨_, _, (Reader.u16_at_iff (by omega)).mpr ⟨by omega, rfl, rfl⟩, ?_⟩
    refine run_bind_ok_iff.mpr ⟨_, _, (Reader.u16_at_iff (by omega)).mpr ⟨by omega, rfl, rfl⟩, ?_⟩
    simp only [hdata, hend, hend']
    rfl

/-- The root is read from its place in the bytes. -/
theorem readRoot_ok {bytes : List UInt8} {base : Nat} {strictness : Strictness}
    {x : Root × List Diagnostic} {r : Reader}
    (hrun : (readRoot strictness base).run (Reader.new bytes base metadataContext) = .ok x r) :
    x.1.streamCount.toNat = streamCount bytes ∧ r.rest = directoryBytes bytes := by
  obtain ⟨hle, _, version, _, rfl, rfl⟩ := readRoot_ok_iff.mp hrun
  exact ⟨UInt16.toNat_ofNat_of_lt' (Reader.leNat_field_lt _ _ _), Reader.moveTo_rest hle⟩

/-- The directory has all the entries it counts, their names have at most 32 bytes, and one
of them names a table stream. -/
def DirectoryConforms (bytes : List UInt8) : Prop :=
  ∃ names, directoryNames (streamCount bytes) (directoryBytes bytes) = some names ∧
    (∀ name ∈ names, name.length ≤ 32) ∧
    ∃ name ∈ names, name = tablesName ∨ name = uncompressedName

/-- A region that strict mode reads is read alike in permissive mode, up to the strictness
that is recorded. -/
theorem parseAt_up {bytes : List UInt8} {base : Nat} {m : Metadata}
    (h : parseAt bytes base .strict = .ok m) :
    parseAt bytes base .permissive = .ok { m with strictness := .permissive } := by
  obtain ⟨root, r1, directory, r2, roles, tables, hroot, hdirectory, hroles, htables, rfl⟩ :=
    parseAt_ok_iff.mp h
  exact parseAt_ok_iff.mpr ⟨root, r1, directory, r2, roles, tables,
    (readRoot_narrows base).up _ _ _ hroot, readDirectory_up _ hdirectory,
    (assignStreams_narrows base _ _).up _ hroles, parseTables_up htables, rfl⟩

/-- Where strict mode reads a region that permissive mode reads without a diagnostic: the
directory conforms. -/
theorem parseAt_strict_iff {bytes : List UInt8} {base : Nat} {m : Metadata}
    (hok : parseAt bytes base .permissive = .ok m) (hquiet : m.diagnostics = []) :
    (∃ m', parseAt bytes base .strict = .ok m') ↔ DirectoryConforms bytes := by
  obtain ⟨root, r1, directory, r2, roles, tables, hroot, hdirectory, hroles, htables, rfl⟩ :=
    parseAt_ok_iff.mp hok
  have hbefore := nil_of_appends (parseTables_appends base .permissive _) htables hquiet
  obtain ⟨hroot_directory, hrolesQuiet⟩ := List.append_eq_nil_iff.mp hbefore
  obtain ⟨hrootQuiet, hdirectoryQuiet⟩ := List.append_eq_nil_iff.mp hroot_directory
  obtain ⟨hcount, hrest⟩ := readRoot_ok hroot
  obtain ⟨hstrict, hnames⟩ := readDirectory_strict_iff _ hdirectory hdirectoryQuiet
  have hstream := assigned_tableStream_isSome hroles
  have htablesIff := parseTables_strict_iff htables hquiet
  have hroot' := (readRoot_narrows base).down _ _ _ hroot hrootQuiet
  have hroles' := (assignStreams_narrows base _ _).down _ hroles hrolesQuiet
  rw [hcount, hrest] at hstrict hnames
  have hconforms : DirectoryConforms bytes ↔
      (readDirectory .strict bytes base (streamCount bytes)).run r1 = .ok directory r2 ∧
        roles.1.tableStream.isSome = true := by
    rw [hstrict, hstream, DirectoryConforms]
    constructor
    · rintro ⟨names, hn, hlen, hname⟩
      have hsame := hnames names hn
      subst hsame
      rw [List.forall_mem_map] at hlen
      obtain ⟨name, hmem, hname⟩ := hname
      obtain ⟨stream, hstreamMem, rfl⟩ := List.mem_map.mp hmem
      exact ⟨⟨hn, hlen⟩, stream, hstreamMem, hname⟩
    · rintro ⟨⟨hn, hlen⟩, stream, hmem, hname⟩
      exact ⟨_, hn, List.forall_mem_map.mpr hlen, _, List.mem_map_of_mem hmem, hname⟩
  rw [hconforms, ← htablesIff, ← hcount]
  constructor
  · rintro ⟨m', hm'⟩
    obtain ⟨root', s1, directory', s2, roles', tables', g1, g2, g3, g4, _⟩ := parseAt_ok_iff.mp hm'
    rw [hroot'] at g1
    cases g1
    have g2' := readDirectory_up _ g2
    rw [hdirectory] at g2'
    cases g2'
    rw [hroles'] at g3
    cases g3
    exact ⟨g2, tables', g4⟩
  · rintro ⟨g2, tables', g4⟩
    exact ⟨_, parseAt_ok_iff.mpr
      ⟨root, r1, directory, r2, roles, tables', hroot', g2, hroles', g4, rfl⟩⟩

end Metadata

end Cildec
