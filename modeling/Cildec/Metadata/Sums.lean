import Cildec.Metadata.Extent
import Cildec.Tables.Sums

/-!
# The size arithmetic of a region, on 32 bits (`src/metadata.rs`, `src/heaps.rs`)

With a `usize` of 32 bits and less than `2 ^ 31` bytes of input, two plain sums can be too
large: the offset that is reported for a stream whose declared range leaves the region, when
the stream starts far enough behind it, and the end of the `#GUID` entry of one index.

* `GuidHeap.getSums_fit_iff`: the one index whose entry ends beyond `2 ^ 32 - 1`;
* `Metadata.parseAtSums_fit_iff`: the sums of `parse_at` fit unless a far stream is cut;
* `Metadata.size_arithmetic_fits_iff`: both, with the row accessor of the parsed tables.
-/

namespace Cildec

open Wire

/-! ## A GUID -/

/-- The plain sum of `GuidHeap::get`. A product that does not fit is caught before it. -/
def GuidHeap.getSums (index : Nat) : List Nat :=
  if index = 0 ∨ u32Max < (index - 1) * 16 then [] else [(index - 1) * 16 + 16]

/-- The product is checked and the sum behind it is not: one index overflows. -/
theorem GuidHeap.getSums_fit_iff (index : Nat) :
    FitsU32 (GuidHeap.getSums index) ↔ index ≠ 2 ^ 28 := by
  have hmax : u32Max = 2 ^ 32 - 1 := rfl
  unfold getSums
  by_cases hcaught : index = 0 ∨ u32Max < (index - 1) * 16
  · rw [if_pos hcaught]
    refine iff_of_true ?_ (by omega)
    intro n hn
    cases hn
  · rw [if_neg hcaught]
    simp only [FitsU32, List.mem_singleton, forall_eq]
    omega

namespace Metadata

/-! ## The sums of `parse_at` -/

/-- The padded length of a name that is terminated. -/
def nameSums (rest : List UInt8) : List Nat :=
  (rest.idxOf? 0).elim [] fun len => [len + 1, nextMultipleOf4 (len + 1)]

/-- The offset that is reported where the bytes are not as many as declared. -/
def streamDataSums (bytes : List UInt8) (base : Nat) (offset size : UInt32) : List Nat :=
  let start := offset.toNat
  let declaredEnd := satAdd start size.toNat
  let stop := min declaredEnd bytes.length
  let data := (slice? bytes (min start bytes.length) stop).getD []
  if data.length ≠ size.toNat then [base + start] else []

def readStreamSums (strictness : Strictness) (bytes : List UInt8) (base : Nat)
    (offset size : UInt32) (r : Reader) : List Nat :=
  nameSums r.rest ++
    after (streamName strictness r.absolute r.rest) fun name =>
      after (checkNameLength strictness r.absolute name.1) fun _ =>
        (r.position + name.2.1) ::
          afterRun ((Reader.seek (r.position + name.2.1)).run r) fun _ _ =>
            streamDataSums bytes base offset size

def readDirectorySums (strictness : Strictness) (bytes : List UInt8) (base : Nat) :
    Nat → Reader → List Nat
  | 0, _ => []
  | count + 1, r =>
      afterRun ((directoryDword strictness r.absolute).run r) fun first r1 =>
        first.elim [] fun offset =>
          afterRun ((directoryDword strictness r.absolute).run r1) fun second r2 =>
            second.elim [] fun size =>
              readStreamSums strictness bytes base offset size r2 ++
                afterRun ((readStream strictness bytes base offset size).run r2) fun _ r3 =>
                  readDirectorySums strictness bytes base count r3

/-- The table stream is handed its start, which saturates at 32 bits. -/
def parseAtSums (bytes : List UInt8) (base : Nat) (strictness : Strictness) : List Nat :=
  afterRun ((readRoot strictness base).run (Reader.new bytes base metadataContext)) fun root r =>
    readDirectorySums strictness bytes base root.1.streamCount.toNat r ++
      afterRun ((readDirectory strictness bytes base root.1.streamCount.toNat).run r)
        fun directory _ =>
          after (assignStreams strictness base directory.1 Roles.none) fun roles =>
            roles.1.tableStream.elim [] fun stream =>
              Tables.parseSums stream.1 (min stream.2.1 u32Max) stream.2.2 strictness
                (root.2 ++ directory.2 ++ roles.2)

/-! ## The entries that are reached -/

/-- The declared range of a stream is not empty and leaves a region of `length` bytes. -/
def IsCut (length : Nat) (offset size : UInt32) : Prop :=
  size.toNat ≠ 0 ∧ length < offset.toNat + size.toNat

instance (length : Nat) (offset size : UInt32) : Decidable (IsCut length offset size) :=
  inferInstanceAs (Decidable (_ ∧ _))

/-- How far the name at the front of `rest` reaches, where it is accepted. -/
def nameExtent (strictness : Strictness) (rest : List UInt8) : Option Nat :=
  match rest.idxOf? 0 with
  | some len =>
      if 32 < len ∧ strictness.isStrict = true ∨ rest.length < nextMultipleOf4 (len + 1) then none
      else some (nextMultipleOf4 (len + 1))
  | none => if strictness.isStrict then none else some rest.length

/-- The declared ranges of a directory of `count` entries, up to the first entry that cannot
be read. -/
def reachedEntries (strictness : Strictness) (length : Nat) :
    Nat → List UInt8 → List (UInt32 × UInt32)
  | 0, _ => []
  | count + 1, bs =>
      if bs.length < 8 then []
      else
        let offset := UInt32.ofNat (leNat (bs.take 4))
        let size := UInt32.ofNat (leNat ((bs.drop 4).take 4))
        (nameExtent strictness (bs.drop 8)).elim [] fun extent =>
          (offset, size) ::
            if strictness.isStrict ∧ IsCut length offset size then []
            else reachedEntries strictness length count (bs.drop (8 + extent))

/-- The root can be read. -/
def RootReadable (strictness : Strictness) (bytes : List UInt8) : Prop :=
  20 + versionLength bytes ≤ bytes.length ∧
    UInt32.ofNat (leNat (bytes.take 4)) = metadataSignature ∧
    (strictness.isStrict = true → 0 ∈ versionField bytes)

/-- No stream of the directory that is cut starts `2 ^ 32` bytes or more into the file. -/
def NoFarCut (strictness : Strictness) (bytes : List UInt8) (base : Nat) : Prop :=
  RootReadable strictness bytes →
    ∀ entry ∈ reachedEntries strictness bytes.length (streamCount bytes) (directoryBytes bytes),
      IsCut bytes.length entry.1 entry.2 → base + entry.1.toNat ≤ u32Max

/-! ## One entry -/

theorem clamped_ne_iff {bytes : List UInt8} {offset size : UInt32} :
    ((slice? bytes (min offset.toNat bytes.length)
      (min (satAdd offset.toNat size.toNat) bytes.length)).getD []).length ≠ size.toNat ↔
      IsCut bytes.length offset size := by
  rw [clamped_length, IsCut]
  omega

theorem streamDataSums_eq (bytes : List UInt8) (base : Nat) (offset size : UInt32) :
    streamDataSums bytes base offset size =
      if IsCut bytes.length offset size then [base + offset.toNat] else [] := by
  simp only [streamDataSums, clamped_ne_iff]

theorem streamData_isOk_iff {strictness : Strictness} {bytes : List UInt8}
    {offset size : UInt32} (base : Nat) :
    (∃ x, streamData strictness bytes base offset size = .ok x) ↔
      ¬(strictness.isStrict = true ∧ IsCut bytes.length offset size) := by
  simp only [streamData, clamped_ne_iff]
  by_cases hcut : IsCut bytes.length offset size
  · cases strictness with
    | strict => simp [hcut, Strictness.isStrict]
    | permissive => simp [hcut, Strictness.isStrict]
  · simp [hcut]

/-- The name is read, is short enough and ends in the data. -/
theorem nameExtent_eq_some_iff {strictness : Strictness} {r : Reader} {extent : Nat} :
    nameExtent strictness r.rest = some extent ↔
      ∃ name ds, streamName strictness r.absolute r.rest = .ok (name, extent, ds) ∧
        checkNameLength strictness r.absolute name = .ok () ∧
        r.pos + extent ≤ r.data.length := by
  have hrest := r.rest_length
  have hpos := r.pos_le
  rw [Reader.remaining] at hrest
  unfold nameExtent streamName checkNameLength
  cases hidx : r.rest.idxOf? 0 with
  | some len =>
      obtain ⟨hlt, _⟩ := List.idxOf?_eq_some_iff.mp hidx
      have hlen : (r.rest.take len).length = len := List.length_take_of_le (Nat.le_of_lt hlt)
      simp only
      constructor
      · intro h
        split at h
        · cases h
        · rename_i haccepted
          cases h
          rw [not_or, Nat.not_lt] at haccepted
          refine ⟨_, _, rfl, if_neg ?_, by omega⟩
          rw [hlen]
          exact haccepted.1
      · rintro ⟨name, ds, hname, hcheck, hle⟩
        cases hname
        rw [if_neg]
        rintro (hlong | hshort)
        · rw [if_pos (by rwa [hlen])] at hcheck
          cases hcheck
        · omega
  | none =>
      cases strictness with
      | strict =>
          constructor
          · intro h
            cases h
          · rintro ⟨name, ds, hname, _⟩
            cases hname
      | permissive =>
          constructor
          · intro h
            cases h
            refine ⟨_, _, rfl, if_neg ?_, by omega⟩
            rintro ⟨_, hfalse⟩
            cases hfalse
          · rintro ⟨name, ds, hname, _⟩
            cases hname
            rfl

/-- An entry is read when its name is and strict mode finds all of its stream. -/
theorem readStream_isOk_iff {strictness : Strictness} {bytes : List UInt8} {base : Nat}
    {offset size : UInt32} {r r' : Reader} :
    (∃ x, (readStream strictness bytes base offset size).run r = .ok x r') ↔
      ¬(strictness.isStrict = true ∧ IsCut bytes.length offset size) ∧
      ∃ extent, nameExtent strictness r.rest = some extent ∧ r' = r.moveTo (r.pos + extent) := by
  constructor
  · rintro ⟨x, hrun⟩
    obtain ⟨name, extent, ds, data, dataDs, hname, hcheck, hle, hdata, _, rfl⟩ :=
      readStream_ok_iff.mp hrun
    exact ⟨(streamData_isOk_iff base).mp ⟨_, hdata⟩, extent,
      nameExtent_eq_some_iff.mpr ⟨name, ds, hname, hcheck, hle⟩, rfl⟩
  · rintro ⟨hcut, extent, hextent, rfl⟩
    obtain ⟨name, ds, hname, hcheck, hle⟩ := nameExtent_eq_some_iff.mp hextent
    obtain ⟨⟨data, dataDs⟩, hdata⟩ := (streamData_isOk_iff base).mpr hcut
    exact ⟨_, readStream_ok_iff.mpr
      ⟨name, extent, ds, data, dataDs, hname, hcheck, hle, hdata, rfl, rfl⟩⟩

theorem nameSums_fit {rest : List UInt8} (hlen : rest.length < 2 ^ 31) :
    FitsU32 (nameSums rest) := by
  have hmax : u32Max = 2 ^ 32 - 1 := rfl
  intro n hn
  unfold nameSums at hn
  cases hidx : rest.idxOf? 0 with
  | none =>
      rw [hidx] at hn
      cases hn
  | some len =>
      obtain ⟨hlt, _⟩ := List.idxOf?_eq_some_iff.mp hidx
      rw [hidx] at hn
      simp only [Option.elim, List.mem_cons, List.not_mem_nil, or_false, nextMultipleOf4] at hn
      omega

/-- Padding takes a name at most four bytes beyond the data. -/
theorem streamName_advance_le {strictness : Strictness} {nameAt : Nat} {rest name : List UInt8}
    {advance : Nat} {ds : List Diagnostic}
    (h : streamName strictness nameAt rest = .ok (name, advance, ds)) :
    advance ≤ rest.length + 4 := by
  unfold streamName at h
  cases hidx : rest.idxOf? 0 with
  | some len =>
      obtain ⟨hlt, _⟩ := List.idxOf?_eq_some_iff.mp hidx
      rw [hidx] at h
      cases h
      rw [nextMultipleOf4]
      omega
  | none =>
      simp only [hidx] at h
      split at h
      · cases h
      · cases h
        omega

/-- The sums of an entry fit when the offset that is reported for its stream does. -/
theorem readStreamSums_fit_iff {strictness : Strictness} {bytes : List UInt8} {base : Nat}
    {offset size : UInt32} {r : Reader} (hlen : r.data.length < 2 ^ 31) :
    FitsU32 (readStreamSums strictness bytes base offset size r) ↔
      ∀ extent, nameExtent strictness r.rest = some extent →
        IsCut bytes.length offset size → base + offset.toNat ≤ u32Max := by
  have hrest := r.rest_length
  have hpos := r.pos_le
  rw [Reader.remaining] at hrest
  unfold readStreamSums
  rw [fitsU32_append]
  constructor
  · rintro ⟨_, hfit⟩ extent hextent hcut
    obtain ⟨name, ds, hname, hcheck, hle⟩ := nameExtent_eq_some_iff.mp hextent
    have hseek := fitsU32_after.mp (fitsU32_after.mp hfit _ hname) _ hcheck
    have hdata := fitsU32_afterRun.mp (fun n hn => hseek n (List.mem_cons_of_mem _ hn)) ()
      (r.moveTo (r.pos + extent)) (Reader.seek_ok_iff.mpr ⟨hle, rfl⟩)
    rw [streamDataSums_eq, if_pos hcut] at hdata
    exact hdata _ (List.mem_singleton.mpr rfl)
  · intro hfar
    refine ⟨nameSums_fit (by omega), fitsU32_after.mpr ?_⟩
    rintro ⟨name, advance, ds⟩ hname
    refine fitsU32_after.mpr fun _ hcheck n hn => ?_
    rcases List.mem_cons.mp hn with rfl | hn
    · have hadvance := streamName_advance_le hname
      have hmax : u32Max = 2 ^ 32 - 1 := rfl
      have hposition : r.position = r.pos := rfl
      simp only
      omega
    · obtain ⟨_, r', hseek, hn⟩ := mem_afterRun.mp hn
      obtain ⟨hle, _⟩ := Reader.seek_ok_iff.mp hseek
      have hextent := nameExtent_eq_some_iff.mpr ⟨name, ds, hname, hcheck, hle⟩
      rw [streamDataSums_eq] at hn
      by_cases hcut : IsCut bytes.length offset size
      · rw [if_pos hcut, List.mem_singleton] at hn
        rw [hn]
        exact hfar advance hextent hcut
      · rw [if_neg hcut] at hn
        cases hn

/-! ## The directory -/

theorem readDirectorySums_short {strictness : Strictness} {bytes : List UInt8}
    {base count : Nat} {r : Reader} (h8 : r.remaining < 8) :
    FitsU32 (readDirectorySums strictness bytes base (count + 1) r) := by
  unfold readDirectorySums
  refine fitsU32_afterRun.mpr fun first r1 hfirst => ?_
  by_cases h4 : r.remaining < 4
  · obtain ⟨_, rfl, _⟩ := (directoryDword_ok_iff h4).mp hfirst
    exact fitsU32_nil
  · rw [directoryDword_run (Nat.not_lt.mp h4)] at hfirst
    cases hfirst
    refine fitsU32_afterRun.mpr fun second r2 hsecond => ?_
    have hremaining := Reader.remaining_advance 4 r
    have hshort : (r.advance 4).remaining < 4 := by omega
    obtain ⟨_, rfl, _⟩ := (directoryDword_ok_iff hshort).mp hsecond
    exact fitsU32_nil

theorem readDirectorySums_long {strictness : Strictness} {bytes : List UInt8}
    {base count : Nat} {r : Reader} (h8 : 8 ≤ r.remaining) :
    readDirectorySums strictness bytes base (count + 1) r =
      readStreamSums strictness bytes base (UInt32.ofNat (leNat (r.rest.take 4)))
          (UInt32.ofNat (leNat ((r.rest.drop 4).take 4))) (r.advance 8) ++
        afterRun ((readStream strictness bytes base (UInt32.ofNat (leNat (r.rest.take 4)))
          (UInt32.ofNat (leNat ((r.rest.drop 4).take 4)))).run (r.advance 8)) fun _ r' =>
            readDirectorySums strictness bytes base count r' := by
  obtain ⟨hfirst, hsecond⟩ := directoryDwords_run h8 strictness r.absolute
  rw [readDirectorySums, hfirst]
  simp only [afterRun, Option.elim, hsecond]

/-- Behind the offset, the size and the name of an entry stands the next one. -/
theorem rest_after_name {strictness : Strictness} {r : Reader} {extent : Nat}
    (h : nameExtent strictness (r.advance 8).rest = some extent) :
    ((r.advance 8).moveTo ((r.advance 8).pos + extent)).rest = r.rest.drop (8 + extent) := by
  have hrest : (r.advance 8).rest = r.rest.drop 8 := Cursor.rest_advance 8 r
  obtain ⟨_, _, _, _, hle⟩ := nameExtent_eq_some_iff.mp h
  rw [Reader.moveTo_rest hle, ← List.drop_drop, ← List.drop_drop, ← hrest, Reader.rest]

/-- The sums of the directory fit when the offsets that are reported do. -/
theorem readDirectorySums_fit_iff {strictness : Strictness} {bytes : List UInt8} {base : Nat}
    (count : Nat) : ∀ {r : Reader}, r.data.length < 2 ^ 31 →
      (FitsU32 (readDirectorySums strictness bytes base count r) ↔
        ∀ entry ∈ reachedEntries strictness bytes.length count r.rest,
          IsCut bytes.length entry.1 entry.2 → base + entry.1.toNat ≤ u32Max) := by
  induction count with
  | zero =>
      intro r _
      refine iff_of_true fitsU32_nil ?_
      intro entry hentry
      cases hentry
  | succ count ih =>
      intro r hlen
      by_cases h8 : r.remaining < 8
      · refine iff_of_true (readDirectorySums_short h8) ?_
        intro entry hentry
        rw [reachedEntries, if_pos (by rwa [Reader.rest_length])] at hentry
        cases hentry
      · have hrest : (r.advance 8).rest = r.rest.drop 8 := Cursor.rest_advance 8 r
        rw [readDirectorySums_long (Nat.not_lt.mp h8), fitsU32_append,
          readStreamSums_fit_iff (r := r.advance 8) hlen, hrest, reachedEntries,
          if_neg (by rwa [Reader.rest_length])]
        generalize hoffset : UInt32.ofNat (leNat (r.rest.take 4)) = offset
        generalize hsize : UInt32.ofNat (leNat ((r.rest.drop 4).take 4)) = size
        simp only
        -- a name that is not accepted ends the run, and with it the entries that are reached
        cases hextent : nameExtent strictness (r.rest.drop 8) with
        | none =>
            refine iff_of_true ⟨?_, ?_⟩ ?_
            · intro extent hfalse
              cases hfalse
            · refine fitsU32_afterRun.mpr fun x r' hrun => ?_
              obtain ⟨_, extent, hsome, _⟩ := readStream_isOk_iff.mp ⟨x, hrun⟩
              rw [hrest, hextent] at hsome
              cases hsome
            · intro entry hentry
              cases hentry
        | some extent =>
            rw [Option.elim_some, List.forall_mem_cons]
            refine and_congr ⟨fun h => h extent rfl, fun h e he => h⟩ ?_
            -- so does a cut stream in strict mode
            by_cases hstop : strictness.isStrict = true ∧ IsCut bytes.length offset size
            · rw [if_pos hstop]
              refine iff_of_true ?_ ?_
              · refine fitsU32_afterRun.mpr fun x r' hrun => ?_
                exact absurd hstop (readStream_isOk_iff.mp ⟨x, hrun⟩).1
              · intro entry hentry
                cases hentry
            · have hnext := rest_after_name (hrest ▸ hextent)
              rw [if_neg hstop, ← hnext, ← ih (show ((r.advance 8).moveTo _).data.length < 2 ^ 31
                from hlen), fitsU32_afterRun]
              constructor
              · intro hfit
                obtain ⟨x, hrun⟩ := readStream_isOk_iff.mpr
                  ⟨hstop, extent, by rw [hrest, hextent], rfl⟩
                exact hfit x _ hrun
              · intro hfit x r' hrun
                obtain ⟨_, extent', hextent', rfl⟩ := readStream_isOk_iff.mp ⟨x, hrun⟩
                rw [hrest, hextent] at hextent'
                cases hextent'
                exact hfit

/-! ## The table stream -/

/-- The sums of the table stream of a region that lies below `2 ^ 31` fit. -/
theorem tableSums_fit {strictness : Strictness} {bytes : List UInt8} {base count : Nat}
    {r r' : Reader} {directory : List StreamHeader × List Diagnostic}
    {roles : Roles × List Diagnostic} {ds : List Diagnostic}
    (hinput : base + bytes.length ≤ 2 ^ 31 - 1)
    (hdirectory : (readDirectory strictness bytes base count).run r = .ok directory r')
    (hroles : assignStreams strictness base directory.1 Roles.none = .ok roles) :
    FitsU32 (roles.1.tableStream.elim [] fun stream =>
      Tables.parseSums stream.1 (min stream.2.1 u32Max) stream.2.2 strictness ds) := by
  have hmax : u32Max = 2 ^ 32 - 1 := rfl
  cases hfound : roles.1.tableStream with
  | none => exact fitsU32_nil
  | some found =>
      obtain ⟨stream, hmem, rfl⟩ := tableStream_mem hroles hfound
      intro n hn
      have hle := Tables.parseSums_le hn
      have hdata := readDirectory_data hdirectory stream hmem
      have hbase : satAdd base stream.offset.toNat ≤ base + stream.offset.toNat :=
        Nat.min_le_left _ _
      simp only [StreamHeader.tableRole] at hle
      omega

/-! ## The region -/

theorem rootReadable_iff {strictness : Strictness} {bytes : List UInt8} (base : Nat) :
    RootReadable strictness bytes ↔
      ∃ x r, (readRoot strictness base).run (Reader.new bytes base metadataContext) =
        .ok x r := by
  have hsignature : checkSignature base (UInt32.ofNat (leNat (bytes.take 4))) = .ok () ↔
      UInt32.ofNat (leNat (bytes.take 4)) = metadataSignature := by
    rw [checkSignature]
    by_cases h : UInt32.ofNat (leNat (bytes.take 4)) = metadataSignature
    · simp [h]
    · simp [h]
  have hversion : (∃ x, versionString strictness (satAdd base 16) (versionField bytes) = .ok x) ↔
      (strictness.isStrict = true → 0 ∈ versionField bytes) := by
    unfold versionString
    cases hidx : (versionField bytes).idxOf? 0 with
    | some stop =>
        have hmem : 0 ∈ versionField bytes := by
          rw [← List.isSome_idxOf?, hidx]
          rfl
        exact iff_of_true ⟨_, rfl⟩ fun _ => hmem
    | none =>
        have hmem := List.idxOf?_eq_none_iff.mp hidx
        cases strictness with
        | strict => simp [Strictness.isStrict, hmem]
        | permissive => simp [Strictness.isStrict]
  rw [RootReadable, ← hversion, ← hsignature]
  constructor
  · rintro ⟨hle, hcheck, version, hfield⟩
    exact ⟨_, _, readRoot_ok_iff.mpr ⟨hle, hcheck, version, hfield, rfl, rfl⟩⟩
  · rintro ⟨x, r, hrun⟩
    obtain ⟨hle, hcheck, version, hfield, _, _⟩ := readRoot_ok_iff.mp hrun
    exact ⟨hle, hcheck, version, hfield⟩

/-- The sums of a region below `2 ^ 31` fit exactly when no far stream is cut. -/
theorem parseAtSums_fit_iff {strictness : Strictness} {bytes : List UInt8} {base : Nat}
    (hinput : base + bytes.length ≤ 2 ^ 31 - 1) :
    FitsU32 (parseAtSums bytes base strictness) ↔ NoFarCut strictness bytes base := by
  rw [NoFarCut, rootReadable_iff base, parseAtSums, fitsU32_afterRun]
  constructor
  · rintro hfit ⟨x, r, hroot⟩
    obtain ⟨hcount, hrest⟩ := readRoot_ok hroot
    obtain ⟨_, _, _, _, _, hr⟩ := readRoot_ok_iff.mp hroot
    have hdirectory := (fitsU32_append.mp (hfit x r hroot)).1
    rw [readDirectorySums_fit_iff _ (by rw [hr]; show bytes.length < _; omega), hcount, hrest]
      at hdirectory
    exact hdirectory
  · intro hfar x r hroot
    obtain ⟨hcount, hrest⟩ := readRoot_ok hroot
    obtain ⟨_, _, _, _, _, hr⟩ := readRoot_ok_iff.mp hroot
    refine fitsU32_append.mpr ⟨?_, ?_⟩
    · rw [readDirectorySums_fit_iff _ (by rw [hr]; show bytes.length < _; omega), hcount, hrest]
      exact hfar ⟨x, r, hroot⟩
    · refine fitsU32_afterRun.mpr fun directory r' hdirectory => ?_
      exact fitsU32_after.mpr fun roles hroles => tableSums_fit hinput hdirectory hroles

/-- The row accessor of a region below `2 ^ 31` computes nothing that does not fit. -/
theorem rowBytesSums_fit {strictness : Strictness} {bytes : List UInt8} {base : Nat}
    {m : Metadata} (hinput : base + bytes.length ≤ 2 ^ 31 - 1)
    (hparse : parseAt bytes base strictness = .ok m) (table : TableId) (rid : Nat) :
    FitsU32 (m.tables.rowBytesSums table rid) := by
  have hmax : u32Max = 2 ^ 32 - 1 := rfl
  rcases (extent_of_parseAt hparse).tables with hempty | hfound
  · have hrid : rid = 0 ∨ (Tables.empty.layout table).rowCount < rid := Nat.eq_zero_or_pos rid
    rw [hempty, Tables.rowBytesSums, if_pos hrid]
    exact fitsU32_nil
  · obtain ⟨data, _, _, _, _, hdata, htables⟩ := hfound
    obtain ⟨hparsed, _⟩ := Tables.parse_spec htables
    intro n hn
    have hle := hparsed.laidOut.rowBytesSums_le hn
    rw [hparsed.data_eq] at hle
    omega

/-- With a `usize` of 32 bits and an input below `2 ^ 31` bytes, no plain addition or
multiplication of `parse_at`, `Tables::parse`, `row_bytes` and `GuidHeap::get` overflows
exactly when no far stream is cut and the GUID is not the one whose end is `2 ^ 32`. -/
theorem size_arithmetic_fits_iff (bytes : List UInt8) (base : Nat) (strictness : Strictness)
    (index : Nat) (hinput : base + bytes.length ≤ 2 ^ 31 - 1) :
    (FitsU32 (parseAtSums bytes base strictness) ∧
      (∀ m, parseAt bytes base strictness = .ok m →
        ∀ table rid, FitsU32 (m.tables.rowBytesSums table rid)) ∧
      FitsU32 (GuidHeap.getSums index)) ↔
    NoFarCut strictness bytes base ∧ index ≠ 2 ^ 28 := by
  rw [parseAtSums_fit_iff hinput, GuidHeap.getSums_fit_iff]
  constructor
  · rintro ⟨hfar, _, hindex⟩
    exact ⟨hfar, hindex⟩
  · rintro ⟨hfar, hindex⟩
    exact ⟨hfar, fun m hparse => rowBytesSums_fit hinput hparse, hindex⟩

/-- A region whose one stream, of a byte, starts at the last offset there is. -/
def farRegion : List UInt8 :=
  [0x42, 0x53, 0x4A, 0x42, 1, 0, 1, 0, 0, 0, 0, 0, 4, 0, 0, 0, 0x76, 0x34, 0, 0, 0, 0, 1, 0,
    0xFF, 0xFF, 0xFF, 0xFF, 1, 0, 0, 0, 0x23, 0x47, 0x55, 0x49, 0x44, 0, 0, 0]

/-- At the start of a file the region does no harm. -/
theorem size_arithmetic_fits_at_zero :
    FitsU32 (parseAtSums farRegion 0 .permissive) ∧
      (∀ m, parseAt farRegion 0 .permissive = .ok m →
        ∀ table rid, FitsU32 (m.tables.rowBytesSums table rid)) ∧
      FitsU32 (GuidHeap.getSums 1) := by
  refine (size_arithmetic_fits_iff farRegion 0 .permissive 1 (by decide)).mpr ⟨?_, by decide⟩
  intro _ entry _ _
  have hlt := entry.1.toNat_lt
  show 0 + entry.1.toNat ≤ 2 ^ 32 - 1
  omega

/-- Behind the headers of an image its reported offset overflows, in both modes, and so does
the end of the GUID of that index in every heap. -/
theorem size_arithmetic_overflows :
    512 + farRegion.length ≤ 2 ^ 31 - 1 ∧
      ¬ FitsU32 (parseAtSums farRegion 512 .permissive) ∧
      ¬ FitsU32 (parseAtSums farRegion 512 .strict) ∧
      ¬ FitsU32 (GuidHeap.getSums (2 ^ 28)) := by
  refine ⟨by decide, ?_, ?_, ?_⟩
  · intro hfit
    exact absurd (hfit (512 + 0xFFFFFFFF) (by decide +kernel)) (by decide)
  · intro hfit
    exact absurd (hfit (512 + 0xFFFFFFFF) (by decide +kernel)) (by decide)
  · rw [GuidHeap.getSums_fit_iff]
    decide

end Metadata

end Cildec
