import Cildec.Lib.Pieces
import Cildec.Metadata.Sums

/-!
# Damaged stream directories (`src/metadata.rs`)

In permissive mode a directory that is cut off ends the list of its streams, and a name that
the bytes end in is taken as far as it goes. The padding of a name is the exception: the
cursor is moved behind it before the entry is kept, and fails where the padding is cut.

* `listedStreams`: the streams whose offset, size and name can be read;
* `readDirectory_listed`, `readDirectory_cut`: what the loop makes of them;
* `damaged_directory_kept_iff`: when a damaged directory does not fail the parse.
-/

namespace Cildec

open Wire

namespace Metadata

/-- How far the name at the front of `rest` reaches with its NUL and its padding. -/
def nameReach (rest : List UInt8) : Nat := nextMultipleOf4 ((upTo 0 rest).length + 1)

/-- The bytes that a declared range has in the region. -/
def clampedData (bytes : List UInt8) (offset size : UInt32) : List UInt8 :=
  (slice? bytes (min offset.toNat bytes.length)
    (min (satAdd offset.toNat size.toNat) bytes.length)).getD []

/-- The entries of a directory of `count` entries whose offset, size and name can be read. A
name that is not terminated reaches to the end of the bytes. -/
def listedStreams (bytes : List UInt8) : Nat → List UInt8 → List StreamHeader
  | 0, _ => []
  | count + 1, bs =>
      if bs.length < 8 then []
      else
        let offset := UInt32.ofNat (leNat (bs.take 4))
        let size := UInt32.ofNat (leNat ((bs.drop 4).take 4))
        let rest := bs.drop 8
        ⟨upTo 0 rest, offset, size, clampedData bytes offset size⟩ ::
          listedStreams bytes count (rest.drop (nameReach rest))

/-- A terminated name whose padding is cut. -/
def CutPadding (rest : List UInt8) : Prop := 0 ∈ rest ∧ rest.length < nameReach rest

/-- The padding is cut of the name of an entry that is reached. -/
def PaddingCut : Nat → List UInt8 → Prop
  | 0, _ => False
  | count + 1, bs =>
      8 ≤ bs.length ∧
        (CutPadding (bs.drop 8) ∨ PaddingCut count ((bs.drop 8).drop (nameReach (bs.drop 8))))

/-! ## One entry -/

/-- The name of an entry, in permissive mode. -/
theorem nameExtent_permissive (rest : List UInt8) :
    (CutPadding rest → nameExtent .permissive rest = none) ∧
    (¬ CutPadding rest → ∃ extent, nameExtent .permissive rest = some extent ∧
      rest.drop extent = rest.drop (nameReach rest)) := by
  unfold nameExtent CutPadding nameReach
  cases hidx : rest.idxOf? 0 with
  | some len =>
      have hmem : 0 ∈ rest := by
        rw [← List.isSome_idxOf?, hidx]
        rfl
      have hfirst : (upTo 0 rest).length = len := by
        rw [upTo_length, firstOf, hidx]
        rfl
      simp only [hfirst, hmem, true_and, Strictness.isStrict, Bool.false_eq_true, and_false,
        false_or]
      refine ⟨fun hcut => if_pos hcut, fun hcut => ⟨_, if_neg hcut, rfl⟩⟩
  | none =>
      have hmem := List.idxOf?_eq_none_iff.mp hidx
      have hfirst : (upTo 0 rest).length = rest.length := by
        rw [upTo_length, firstOf, hidx]
        rfl
      -- without a NUL the name and its padding both run to the end of the bytes
      refine ⟨fun hcut => absurd hcut.1 hmem, fun _ => ⟨rest.length, rfl, ?_⟩⟩
      rw [hfirst, nextMultipleOf4, List.drop_eq_nil_of_le (Nat.le_refl _),
        List.drop_eq_nil_of_le (by omega)]

/-- A name is read up to its NUL, or to the end of the bytes. -/
theorem streamName_permissive {nameAt advance : Nat} {rest name : List UInt8}
    {ds : List Diagnostic} (h : streamName .permissive nameAt rest = .ok (name, advance, ds)) :
    name = upTo 0 rest := by
  unfold streamName at h
  rw [upTo, firstOf]
  cases hidx : rest.idxOf? 0 with
  | some len =>
      rw [hidx] at h
      cases h
      rfl
  | none =>
      rw [hidx] at h
      cases h
      exact (List.take_length).symm

/-- An entry is kept unless the padding of its name is cut. -/
theorem readStream_permissive (bytes : List UInt8) (base : Nat) (offset size : UInt32)
    (r : Reader) :
    (CutPadding r.rest →
      ∀ x r', (readStream .permissive bytes base offset size).run r ≠ .ok x r') ∧
    (¬ CutPadding r.rest →
      ∃ ds r', (readStream .permissive bytes base offset size).run r =
          .ok (⟨upTo 0 r.rest, offset, size, clampedData bytes offset size⟩, ds) r' ∧
        r'.rest = r.rest.drop (nameReach r.rest)) := by
  obtain ⟨hcut, hkept⟩ := nameExtent_permissive r.rest
  constructor
  · intro h x r' hrun
    obtain ⟨_, extent, hextent, _⟩ := readStream_isOk_iff.mp ⟨x, hrun⟩
    rw [hcut h] at hextent
    cases hextent
  · intro h
    obtain ⟨extent, hextent, hdrop⟩ := hkept h
    have hpermissive : ¬(Strictness.permissive.isStrict = true ∧
        IsCut bytes.length offset size) := fun hstrict => nomatch hstrict.1
    obtain ⟨x, hrun⟩ := readStream_isOk_iff.mpr ⟨hpermissive, extent, hextent, rfl⟩
    obtain ⟨name, advance, nameDs, data, dataDs, hname, _, hle, hdata, rfl, hr⟩ :=
      readStream_ok_iff.mp hrun
    rw [← streamName_permissive hname, clampedData, ← streamData_eq hdata]
    refine ⟨_, _, hrun, ?_⟩
    rw [← hdrop, Reader.moveTo_rest, Reader.rest, List.drop_drop]
    obtain ⟨_, _, _, _, hend⟩ := nameExtent_eq_some_iff.mp hextent
    exact hend

/-! ## The loop -/

/-- The loop keeps every entry that can be read, by induction on the entries that are left. -/
theorem readDirectory_listed {bytes : List UInt8} (base count : Nat) :
    ∀ {r : Reader}, ¬ PaddingCut count r.rest →
      ∃ ds r', (readDirectory .permissive bytes base count).run r =
        .ok (listedStreams bytes count r.rest, ds) r' := by
  induction count with
  | zero =>
      intro r _
      exact ⟨[], r, rfl⟩
  | succ count ih =>
      intro r hcut
      have hlen := r.rest_length
      -- fewer than 8 bytes hold no entry, and end the list
      by_cases h8 : r.remaining < 8
      · refine ⟨[], _, readDirectory_ok_iff.mpr (.inl ⟨h8, rfl, ?_, rfl⟩)⟩
        rw [listedStreams, if_pos (by omega)]
      · have hrest : (r.advance 8).rest = r.rest.drop 8 := Cursor.rest_advance 8 r
        rw [PaddingCut, not_and] at hcut
        obtain ⟨hhere, hlater⟩ := not_or.mp (hcut (by omega))
        rw [← hrest] at hhere hlater
        obtain ⟨ds, mid, hstream, hmid⟩ :=
          (readStream_permissive bytes base (UInt32.ofNat (leNat (r.rest.take 4)))
            (UInt32.ofNat (leNat ((r.rest.drop 4).take 4))) (r.advance 8)).2 hhere
        rw [← hmid] at hlater
        obtain ⟨ds', r', hrun⟩ := ih hlater
        refine ⟨ds ++ ds', r', readDirectory_ok_iff.mpr
          (.inr ⟨Nat.not_lt.mp h8, _, _, mid, hstream, hrun, ?_⟩)⟩
        rw [listedStreams, if_neg (by omega), hmid, hrest]

/-- The loop fails where the padding of a name is cut. -/
theorem readDirectory_cut {bytes : List UInt8} {base : Nat} (count : Nat) :
    ∀ {r : Reader}, PaddingCut count r.rest →
      ∀ x r', (readDirectory .permissive bytes base count).run r ≠ .ok x r' := by
  induction count with
  | zero =>
      intro r hcut
      exact hcut.elim
  | succ count ih =>
      intro r hcut x r' hrun
      have hlen := r.rest_length
      have hrest : (r.advance 8).rest = r.rest.drop 8 := Cursor.rest_advance 8 r
      obtain ⟨h8, hcut⟩ := hcut
      rw [← hrest] at hcut
      rcases readDirectory_ok_iff.mp hrun with ⟨hshort, _⟩ |
        ⟨_, stream, rest, mid, hstream, hdirectory, _⟩
      · omega
      · obtain ⟨hfails, hkept⟩ :=
          readStream_permissive bytes base (UInt32.ofNat (leNat (r.rest.take 4)))
            (UInt32.ofNat (leNat ((r.rest.drop 4).take 4))) (r.advance 8)
        -- either the padding is cut here, or the loop goes on to where it is
        by_cases hhere : CutPadding (r.advance 8).rest
        · exact hfails hhere _ _ hstream
        · obtain ⟨ds, mid', hstream', hmid⟩ := hkept hhere
          rw [hstream] at hstream'
          cases hstream'
          have hlater := hcut.resolve_left hhere
          rw [← hmid] at hlater
          exact ih hlater _ _ hdirectory

/-! ## The region -/

/-- What a region comes to, once its directory and the roles of its streams are known. -/
theorem parseAt_of_directory {bytes : List UInt8} {base : Nat} {strictness : Strictness}
    {root : Root × List Diagnostic} {directory : List StreamHeader × List Diagnostic}
    {roles : Roles × List Diagnostic} {r1 r2 : Reader}
    (hroot : (readRoot strictness base).run (Reader.new bytes base metadataContext) = .ok root r1)
    (hdirectory : (readDirectory strictness bytes base root.1.streamCount.toNat).run r1 =
      .ok directory r2)
    (hroles : assignStreams strictness base directory.1 Roles.none = .ok roles) :
    parseAt bytes base strictness =
      (parseTables strictness base roles.1.tableStream (root.2 ++ directory.2 ++ roles.2)).map
        (assemble bytes base strictness root.1 directory.1 roles.1) := by
  have hroles' : (Wire.ofExcept (assignStreams strictness base directory.1 Roles.none) :
      Read (Roles × List Diagnostic)).run r2 = .ok roles r2 := by
    rw [hroles]
    rfl
  unfold parseAt parseRegion
  rw [run_bind_of_ok hroot, run_bind_of_ok hdirectory, run_bind_of_ok hroles']
  dsimp only
  cases parseTables strictness base roles.1.tableStream (root.2 ++ directory.2 ++ roles.2) with
  | error e => rfl
  | ok tables => rfl

/-- The error comes from the table stream, which is one of `streams`. -/
def FromTables (base : Nat) (streams : List StreamHeader) (e : Error) : Prop :=
  ∃ stream ∈ streams, ∃ uncompressed ds,
    Tables.parse stream.data (satAdd base stream.offset.toNat) uncompressed .permissive ds =
      .error e

/-- The directory loop of a region keeps every stream that can be read, and only the table
stream fails the parse. -/
def DirectoryKept (bytes : List UInt8) (base : Nat) : Prop :=
  (∃ root r1 ds r2,
    (readRoot .permissive base).run (Reader.new bytes base metadataContext) = .ok root r1 ∧
    (readDirectory .permissive bytes base root.1.streamCount.toNat).run r1 =
      .ok (listedStreams bytes (streamCount bytes) (directoryBytes bytes), ds) r2) ∧
  ∀ e, parseAt bytes base .permissive = .error e →
    FromTables base (listedStreams bytes (streamCount bytes) (directoryBytes bytes)) e

/-- A name whose padding is cut fails the parse. -/
theorem not_kept_of_cut {bytes : List UInt8} {base : Nat}
    (hcut : PaddingCut (streamCount bytes) (directoryBytes bytes)) :
    ¬ DirectoryKept bytes base := by
  rintro ⟨⟨root, r1, ds, r2, hroot, hdirectory⟩, _⟩
  obtain ⟨hcount, hrest⟩ := readRoot_ok hroot
  rw [hcount] at hdirectory
  rw [← hrest] at hcut
  exact readDirectory_cut _ hcut _ _ hdirectory

/-- Behind a root that can be read, a damaged directory does not fail the parse exactly when
no name that is reached has its padding cut. -/
theorem damaged_directory_kept_iff {bytes : List UInt8} (base : Nat)
    (hroot : RootReadable .permissive bytes) :
    DirectoryKept bytes base ↔ ¬ PaddingCut (streamCount bytes) (directoryBytes bytes) := by
  obtain ⟨root, r1, hrun⟩ := (rootReadable_iff base).mp hroot
  obtain ⟨hcount, hrest⟩ := readRoot_ok hrun
  constructor
  · intro hkept hcut
    exact not_kept_of_cut hcut hkept
  · intro hcut
    rw [← hrest] at hcut
    obtain ⟨ds, r2, hlisted⟩ := readDirectory_listed base _ hcut
    rw [hrest] at hlisted
    have hdirectory := hlisted
    rw [← hcount] at hdirectory
    refine ⟨⟨root, r1, ds, r2, hrun, by rw [hcount]; exact hlisted⟩, ?_⟩
    -- behind the directory only the table stream can fail
    intro e he
    obtain ⟨roles, hroles⟩ := exists_assignStreams base
      (listedStreams bytes root.1.streamCount.toNat (directoryBytes bytes)) Roles.none
    rw [parseAt_of_directory hrun hdirectory hroles] at he
    cases hfound : roles.1.tableStream with
    | none =>
        rw [hfound] at he
        cases he
    | some found =>
        obtain ⟨stream, hmem, rfl⟩ := tableStream_mem hroles hfound
        rw [hcount] at hmem
        refine ⟨stream, hmem, (stream.tableRole base).2.2, root.2 ++ ds ++ roles.2, ?_⟩
        rw [hfound] at he
        cases htables : parseTables .permissive base (some (stream.tableRole base))
            (root.2 ++ ds ++ roles.2) with
        | error e' =>
            rw [htables] at he
            cases he
            exact htables
        | ok tables =>
            rw [htables] at he
            cases he

/-- A root that counts one stream, and the offset and size of its entry. -/
def oneEntry : List UInt8 :=
  [0x42, 0x53, 0x4A, 0x42, 1, 0, 1, 0, 0, 0, 0, 0, 4, 0, 0, 0, 0x76, 0x34, 0, 0, 0, 0, 1, 0,
    0, 0, 0, 0, 0, 0, 0, 0]

/-- A name the bytes end in, without its NUL, does no harm. -/
theorem damaged_directory_kept_unterminated :
    DirectoryKept (oneEntry ++ [0x23, 0x53]) 0 := by
  refine (damaged_directory_kept_iff 0 ⟨by decide, by decide, fun h => nomatch h⟩).mpr ?_
  rintro ⟨_, ⟨hmem, _⟩ | hfalse⟩
  · exact absurd hmem (by decide)
  · exact hfalse.elim

/-- A name of two bytes with its NUL, but without the byte that pads it, fails the parse. -/
theorem cut_padding_fails :
    RootReadable .permissive (oneEntry ++ [0x23, 0x53, 0x00]) ∧
      ¬ DirectoryKept (oneEntry ++ [0x23, 0x53, 0x00]) 0 := by
  refine ⟨⟨by decide, by decide, fun h => nomatch h⟩, not_kept_of_cut ?_⟩
  exact ⟨by decide, .inl ⟨by decide, by decide⟩⟩

end Metadata

end Cildec
