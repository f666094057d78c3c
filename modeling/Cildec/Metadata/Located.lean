import Cildec.Metadata.Damaged
import Cildec.Tables.Located

/-!
# Where the errors of a region point (`src/metadata.rs`)

An error is reported where the cursor stands, except for the streams themselves: the start of
a stream is a declared value, and it is reported when strict mode finds the stream cut or its
name repeated, and by the table stream when that is refused. A stream that starts behind the
region takes the error with it.

* `readDirectory_error`: what the directory loop reports;
* `parseAt_pointsInto_iff`: the errors of a region point into it exactly when no stream that is
  reported starts behind it.
-/

namespace Cildec

open Wire
open Reader (Past exits_u16 exits_u32 exits_take exits_seek)

namespace Metadata

variable {bytes : List UInt8} {base count : Nat} {strictness : Strictness} {e : Error}
  {offset size : UInt32} {r r' : Reader}

/-! ## The root -/

theorem versionString_located {versionAt lo hi : Nat} {field : List UInt8} (hlo : lo ≤ versionAt)
    (hhi : versionAt ≤ hi) (h : versionString strictness versionAt field = .error e) :
    e.Located lo hi := by
  unfold versionString at h
  cases hidx : field.idxOf? 0 with
  | some stop =>
      rw [hidx] at h
      cases h
  | none =>
      simp only [hidx] at h
      split_ifs at h
      cases h
      exact Error.located_new hlo hhi

theorem exits_readRoot (hmax : base + bytes.length ≤ usizeMax) :
    Exits (Past bytes base 0) (Error.Located base (base + bytes.length)) (fun _ _ => True)
      (readRoot strictness base) := by
  have hsignature (signature : UInt32) : Exits (Past bytes base (0 + 4))
      (Error.Located base (base + bytes.length)) (fun _ => Past bytes base (0 + 4))
      (Wire.ofExcept (checkSignature base signature)) := by
    refine Exits.ofExcept (fun _ _ _ h => h) fun e he => ?_
    unfold checkSignature at he
    split_ifs at he
    cases he
    exact Error.located_new le_rfl (Nat.le_add_right _ _)
  refine (exits_u32 hmax).bind fun signature => (hsignature signature).bind fun _ => ?_
  refine (exits_u16 hmax).bind fun _ => (exits_u16 hmax).bind fun _ => ?_
  refine (exits_u32 hmax).bind fun _ => (exits_u32 hmax).bind fun length => ?_
  refine Exits.get_keep fun r hr => (exits_take hmax _).bind fun field => ?_
  have hat := hr.absolute hmax
  have hversion : Exits (fun s => field.length = length.toNat ∧ Past bytes base
      (0 + 4 + 2 + 2 + 4 + 4 + length.toNat) s) (Error.Located base (base + bytes.length))
      (fun _ => Past bytes base 0)
      (Wire.ofExcept (versionString strictness r.absolute field)) :=
    Exits.ofExcept (fun _ _ _ h => h.2.mono (Nat.zero_le _)) fun e he =>
      versionString_located hat.1 hat.2 he
  refine hversion.bind fun _ => ?_
  exact (exits_u16 hmax).bind fun _ => (exits_u16 hmax).bind fun _ => Exits.pure fun _ _ => trivial

/-! ## One entry -/

theorem streamName_located {nameAt lo hi : Nat} {rest : List UInt8} (hlo : lo ≤ nameAt)
    (hhi : nameAt ≤ hi) (h : streamName strictness nameAt rest = .error e) : e.Located lo hi := by
  unfold streamName at h
  cases hidx : rest.idxOf? 0 with
  | some len =>
      rw [hidx] at h
      cases h
  | none =>
      simp only [hidx] at h
      split_ifs at h
      cases h
      exact Error.located_new hlo hhi

theorem checkNameLength_located {nameAt lo hi : Nat} {name : List UInt8} (hlo : lo ≤ nameAt)
    (hhi : nameAt ≤ hi) (h : checkNameLength strictness nameAt name = .error e) :
    e.Located lo hi := by
  unfold checkNameLength at h
  split_ifs at h
  cases h
  exact Error.located_new hlo hhi

/-- A name that is not accepted is reported where it begins. -/
theorem exits_readStream (hmax : base + bytes.length ≤ usizeMax) (hr : Past bytes base 0 r)
    (hname : nameExtent strictness r.rest = none) :
    Exits (fun s => s = r) (Error.Located base (base + bytes.length)) (fun _ _ => False)
      (readStream strictness bytes base offset size) := by
  have hat := hr.absolute hmax
  refine Exits.get_bind fun s hs => ?_
  subst hs
  have hread : Exits (fun r => r = s) (Error.Located base (base + bytes.length))
      (fun x r => streamName strictness s.absolute s.rest = .ok x ∧ r = s)
      (Wire.ofExcept (streamName strictness s.absolute s.rest)) :=
    Exits.ofExcept (fun x hx r hr => ⟨hx, hr⟩) fun e he => streamName_located hat.1 hat.2 he
  refine hread.bind fun x => Exits.of_pre fun r hx => ?_
  obtain ⟨name, advance, ds⟩ := x
  have hcheck : Exits (fun r => streamName strictness s.absolute s.rest = .ok (name, advance, ds) ∧
      r = s) (Error.Located base (base + bytes.length))
      (fun _ r => checkNameLength strictness s.absolute name = .ok () ∧ r = s)
      (Wire.ofExcept (checkNameLength strictness s.absolute name)) :=
    Exits.ofExcept (fun _ hx r hr => ⟨hx, hr.2⟩) fun e he => checkNameLength_located hat.1 hat.2 he
  refine hcheck.bind fun _ => ?_
  -- the name would be accepted if the cursor could be moved behind it
  have hseek : Exits (fun r => checkNameLength strictness s.absolute name = .ok () ∧ r = s)
      (Error.Located base (base + bytes.length)) (fun _ _ => False)
      (Reader.seek (s.position + advance)) := by
    refine ⟨?_, ?_⟩
    · rintro _ _ r' ⟨hchecked, rfl⟩ hrun
      obtain ⟨hle, _⟩ := Reader.seek_ok_iff.mp hrun
      have hextent := nameExtent_eq_some_iff.mpr ⟨name, ds, hx.1, hchecked, hle⟩
      rw [hname] at hextent
      cases hextent
    · rintro _ e r' ⟨_, rfl⟩ hrun
      exact (exits_seek hmax _).error _ e r' hr hrun
  exact hseek.bind fun _ => Exits.of_pre fun _ hfalse => hfalse.elim

/-- Strict mode rejects the stream for its range, at its declared start. -/
def CutError (strictness : Strictness) (bytes : List UInt8) (base : Nat) (offset size : UInt32)
    (e : Error) : Prop :=
  (strictness.isStrict = true ∧ IsCut bytes.length offset size) ∧
    e = Error.new .truncated (base + offset.toNat) metadataContext

/-- Behind a name that is accepted only the range of the stream is left to be rejected. -/
theorem readStream_cutError {extent : Nat} (hname : nameExtent strictness r.rest = some extent)
    (hrun : (readStream strictness bytes base offset size).run r = .error e r') :
    CutError strictness bytes base offset size e := by
  obtain ⟨name, ds, hread, hcheck, hle⟩ := nameExtent_eq_some_iff.mp hname
  have hget : (get : Read Reader).run r = .ok r r := rfl
  have hread' : (Wire.ofExcept (streamName strictness r.absolute r.rest) :
      Read (List UInt8 × Nat × List Diagnostic)).run r = .ok (name, extent, ds) r :=
    ofExcept_ok_iff.mpr ⟨hread, rfl⟩
  have hcheck' : (Wire.ofExcept (checkNameLength strictness r.absolute name) : Read Unit).run r =
      .ok () r := ofExcept_ok_iff.mpr ⟨hcheck, rfl⟩
  have hseek : (Reader.seek (r.position + extent)).run r = .ok () (r.moveTo (r.pos + extent)) :=
    Reader.seek_ok_iff.mpr ⟨hle, rfl⟩
  rw [readStream, run_bind_of_ok hget, run_bind_of_ok hread', run_bind_of_ok hcheck',
    run_bind_of_ok hseek] at hrun
  simp only [streamData, clamped_ne_iff] at hrun
  by_cases hcut : strictness.isStrict = true ∧ IsCut bytes.length offset size
  · simp only [hcut.1, hcut.2, if_true] at hrun
    cases hrun
    exact ⟨hcut, rfl⟩
  · by_cases hrange : IsCut bytes.length offset size
    · have hstrict : ¬ strictness.isStrict = true := fun h => hcut ⟨h, hrange⟩
      simp only [hrange, hstrict, if_true] at hrun
      cases hrun
    · simp only [hrange, if_false] at hrun
      cases hrun

theorem accepted_stream (base : Nat) {extent : Nat}
    (hname : nameExtent strictness r.rest = some extent)
    (hcut : ¬(strictness.isStrict = true ∧ IsCut bytes.length offset size)) :
    ∃ x, (readStream strictness bytes base offset size).run r =
      .ok x (r.moveTo (r.pos + extent)) := readStream_isOk_iff.mpr ⟨hcut, extent, hname, rfl⟩

/-! ## The directory -/

/-- Where the directory ends early, the error names the start of the entry. -/
theorem directoryDword_error {entryAt : Nat}
    (hrun : (directoryDword strictness entryAt).run r = .error e r') :
    e = Error.new .truncated entryAt metadataContext := by
  by_cases h4 : r.remaining < 4
  · rw [directoryDword, run_bind_of_ok (attempt_u32_none h4)] at hrun
    cases strictness with
    | strict =>
        cases hrun
        rfl
    | permissive => cases hrun
  · rw [directoryDword_run (Nat.not_lt.mp h4)] at hrun
    cases hrun

/-- An entry whose offset and size are there. -/
theorem readDirectory_run (h8 : 8 ≤ r.remaining) :
    (readDirectory strictness bytes base (count + 1)).run r =
      (do
        let (stream, diagnostics) ← readStream strictness bytes base
          (UInt32.ofNat (leNat (r.rest.take 4))) (UInt32.ofNat (leNat ((r.rest.drop 4).take 4)))
        let (streams, rest) ← readDirectory strictness bytes base count
        return (stream :: streams, diagnostics ++ rest)).run (r.advance 8) := by
  have hget : (get : Read Reader).run r = .ok r r := rfl
  obtain ⟨hfirst, hsecond⟩ := directoryDwords_run h8 strictness r.absolute
  rw [readDirectory, run_bind_of_ok hget, run_bind_of_ok hfirst]
  dsimp only
  rw [run_bind_of_ok hsecond]

/-- Fewer than eight bytes are no entry. -/
theorem readDirectory_short (h8 : r.remaining < 8)
    (hrun : (readDirectory strictness bytes base (count + 1)).run r = .error e r') :
    e = Error.new .truncated r.absolute metadataContext := by
  have hget : (get : Read Reader).run r = .ok r r := rfl
  rw [readDirectory, run_bind_of_ok hget] at hrun
  cases hfirst : (directoryDword strictness r.absolute).run r with
  | error e' r1 =>
      rw [run_bind_of_error hfirst] at hrun
      cases hrun
      exact directoryDword_error hfirst
  | ok first r1 =>
      rw [run_bind_of_ok hfirst] at hrun
      cases first with
      | none => cases hrun
      | some offset =>
          dsimp only at hrun
          cases hsecond : (directoryDword strictness r.absolute).run r1 with
          | error e' r2 =>
              rw [run_bind_of_error hsecond] at hrun
              cases hrun
              exact directoryDword_error hsecond
          | ok second r2 =>
              -- the size is not there
              have h4 : ¬ r.remaining < 4 := by
                intro h4
                obtain ⟨_, hnone, _⟩ := (directoryDword_ok_iff h4).mp hfirst
                cases hnone
              rw [directoryDword_run (Nat.not_lt.mp h4)] at hfirst
              cases hfirst
              have hremaining := Reader.remaining_advance 4 r
              have hshort : (r.advance 4).remaining < 4 := by omega
              obtain ⟨_, rfl, rfl⟩ := (directoryDword_ok_iff hshort).mp hsecond
              rw [run_bind_of_ok hsecond] at hrun
              cases hrun

theorem reachedEntries_succ {length extent : Nat} {bs : List UInt8} (h8 : 8 ≤ bs.length)
    (hname : nameExtent strictness (bs.drop 8) = some extent) :
    reachedEntries strictness length (count + 1) bs =
      (UInt32.ofNat (leNat (bs.take 4)), UInt32.ofNat (leNat ((bs.drop 4).take 4))) ::
        if strictness.isStrict ∧ IsCut length (UInt32.ofNat (leNat (bs.take 4)))
          (UInt32.ofNat (leNat ((bs.drop 4).take 4))) then []
        else reachedEntries strictness length count (bs.drop (8 + extent)) := by
  rw [reachedEntries, if_neg (Nat.not_lt.mpr h8)]
  simp only [hname, Option.elim_some]

/-- The directory loop reports where the cursor stands, or the start of a stream that is
cut. -/
theorem readDirectory_error (hmax : base + bytes.length ≤ usizeMax) (count : Nat) :
    ∀ {r r' : Reader}, Past bytes base 0 r →
      (readDirectory strictness bytes base count).run r = .error e r' →
        e.Located base (base + bytes.length) ∨
          ∃ entry ∈ reachedEntries strictness bytes.length count r.rest,
            CutError strictness bytes base entry.1 entry.2 e := by
  induction count with
  | zero =>
      intro r r' _ hrun
      cases hrun
  | succ count ih =>
      intro r r' hr hrun
      have hlen := r.rest_length
      by_cases h8 : r.remaining < 8
      · rw [readDirectory_short h8 hrun]
        exact .inl (hr.located hmax _ _)
      · have hr8 : Past bytes base 0 (r.advance 8) := ⟨hr.data_eq, hr.base_eq, Nat.zero_le _⟩
        have hrest : (r.advance 8).rest = r.rest.drop 8 := Cursor.rest_advance 8 r
        rw [readDirectory_run (Nat.not_lt.mp h8)] at hrun
        cases hstream : (readStream strictness bytes base (UInt32.ofNat (leNat (r.rest.take 4)))
            (UInt32.ofNat (leNat ((r.rest.drop 4).take 4)))).run (r.advance 8) with
        | error e' mid =>
            rw [run_bind_of_error hstream] at hrun
            cases hrun
            cases hname : nameExtent strictness (r.advance 8).rest with
            | none => exact .inl ((exits_readStream hmax hr8 hname).error _ _ _ rfl hstream)
            | some extent =>
                refine .inr ⟨(UInt32.ofNat (leNat (r.rest.take 4)),
                  UInt32.ofNat (leNat ((r.rest.drop 4).take 4))), ?_,
                  readStream_cutError hname hstream⟩
                rw [reachedEntries_succ (by omega) (hrest ▸ hname)]
                exact List.mem_cons_self
        | ok x mid =>
            obtain ⟨hcut, extent, hname, rfl⟩ := readStream_isOk_iff.mp ⟨x, hstream⟩
            rw [run_bind_of_ok hstream] at hrun
            have hmid : Past bytes base 0 ((r.advance 8).moveTo ((r.advance 8).pos + extent)) :=
              ⟨hr.data_eq, hr.base_eq, Nat.zero_le _⟩
            cases hdirectory : (readDirectory strictness bytes base count).run
                ((r.advance 8).moveTo ((r.advance 8).pos + extent)) with
            | ok rest r2 =>
                rw [run_bind_of_ok hdirectory] at hrun
                cases hrun
            | error e' r2 =>
                rw [run_bind_of_error hdirectory] at hrun
                cases hrun
                rcases ih hmid hdirectory with hlocated | ⟨entry, hentry, herror⟩
                · exact .inl hlocated
                · refine .inr ⟨entry, ?_, herror⟩
                  rw [rest_after_name hname] at hentry
                  rw [reachedEntries_succ (by omega) (hrest ▸ hname), if_neg hcut]
                  exact List.mem_cons_of_mem _ hentry

/-- A stream that is cut and reached ends the loop of strict mode. -/
theorem readDirectory_cutError (base count : Nat) : ∀ {r : Reader} {entry : UInt32 × UInt32},
    entry ∈ reachedEntries strictness bytes.length count r.rest →
      strictness.isStrict = true → IsCut bytes.length entry.1 entry.2 →
        ∃ e r', (readDirectory strictness bytes base count).run r = .error e r' ∧
          CutError strictness bytes base entry.1 entry.2 e := by
  induction count with
  | zero =>
      intro r entry hentry
      cases hentry
  | succ count ih =>
      intro r entry hentry hstrict hrange
      have hlen := r.rest_length
      have hrest : (r.advance 8).rest = r.rest.drop 8 := Cursor.rest_advance 8 r
      by_cases h8 : r.rest.length < 8
      · rw [reachedEntries, if_pos h8] at hentry
        cases hentry
      · cases hname : nameExtent strictness (r.rest.drop 8) with
        | none =>
            rw [reachedEntries, if_neg h8] at hentry
            simp only [hname, Option.elim_none] at hentry
            cases hentry
        | some extent =>
            rw [reachedEntries_succ (Nat.not_lt.mp h8) hname] at hentry
            rw [readDirectory_run (by omega)]
            generalize UInt32.ofNat (leNat (r.rest.take 4)) = offset at hentry ⊢
            generalize UInt32.ofNat (leNat ((r.rest.drop 4).take 4)) = size at hentry ⊢
            rw [← hrest] at hname
            by_cases hcut : strictness.isStrict = true ∧ IsCut bytes.length offset size
            · rw [if_pos hcut, List.mem_singleton] at hentry
              subst hentry
              cases hstream : (readStream strictness bytes base offset size).run (r.advance 8) with
              | ok x mid => exact absurd hcut (readStream_isOk_iff.mp ⟨x, hstream⟩).1
              | error e mid =>
                  exact ⟨e, mid, run_bind_of_error hstream, readStream_cutError hname hstream⟩
            · obtain ⟨x, hstream⟩ := accepted_stream base hname hcut
              rw [if_neg hcut] at hentry
              rcases List.mem_cons.mp hentry with rfl | hentry
              · exact absurd ⟨hstrict, hrange⟩ hcut
              · rw [← rest_after_name hname] at hentry
                obtain ⟨e, r', hrun, herror⟩ := ih hentry hstrict hrange
                refine ⟨e, r', ?_, herror⟩
                rw [run_bind_of_ok hstream]
                exact run_bind_of_error hrun

/-- Every entry of the directory is accepted. Permissive mode ends the list where fewer than
eight bytes are left. -/
def DirectoryReadable (strictness : Strictness) (length : Nat) : Nat → List UInt8 → Prop
  | 0, _ => True
  | count + 1, bs =>
      if bs.length < 8 then strictness.isStrict = false
      else
        let offset := UInt32.ofNat (leNat (bs.take 4))
        let size := UInt32.ofNat (leNat ((bs.drop 4).take 4))
        ∃ extent, nameExtent strictness (bs.drop 8) = some extent ∧
          ¬(strictness.isStrict = true ∧ IsCut length offset size) ∧
          DirectoryReadable strictness length count (bs.drop (8 + extent))

theorem directoryReadable_iff (base count : Nat) : ∀ {r : Reader},
    DirectoryReadable strictness bytes.length count r.rest ↔
      ∃ x r', (readDirectory strictness bytes base count).run r = .ok x r' := by
  induction count with
  | zero =>
      intro r
      exact iff_of_true trivial ⟨_, _, rfl⟩
  | succ count ih =>
      intro r
      have hlen := r.rest_length
      have hrest : (r.advance 8).rest = r.rest.drop 8 := Cursor.rest_advance 8 r
      by_cases h8 : r.rest.length < 8
      · rw [DirectoryReadable, if_pos h8]
        constructor
        · intro hpermissive
          exact ⟨_, _, readDirectory_ok_iff.mpr (.inl ⟨by omega, hpermissive, rfl, rfl⟩)⟩
        · rintro ⟨x, r', hrun⟩
          rcases readDirectory_ok_iff.mp hrun with ⟨_, hpermissive, _⟩ | ⟨hlong, _⟩
          · exact hpermissive
          · omega
      · rw [DirectoryReadable, if_neg h8]
        simp only
        constructor
        · rintro ⟨extent, hname, hcut, hlater⟩
          rw [← hrest] at hname
          obtain ⟨stream, hstream⟩ := accepted_stream base hname hcut
          rw [← rest_after_name hname] at hlater
          obtain ⟨others, r', hrun⟩ := ih.mp hlater
          exact ⟨_, r', readDirectory_ok_iff.mpr
            (.inr ⟨by omega, stream, others, _, hstream, hrun, rfl⟩)⟩
        · rintro ⟨x, r', hrun⟩
          rcases readDirectory_ok_iff.mp hrun with ⟨hshort, _⟩ |
            ⟨_, stream, others, mid, hstream, hothers, _⟩
          · omega
          · obtain ⟨hcut, extent, hname, rfl⟩ := readStream_isOk_iff.mp ⟨stream, hstream⟩
            refine ⟨extent, hrest ▸ hname, hcut, ?_⟩
            rw [← rest_after_name hname]
            exact ih.mpr ⟨others, r', hothers⟩

/-- The streams of a directory that is read, in both modes. -/
theorem readDirectory_streams {x : List StreamHeader × List Diagnostic}
    (hrun : (readDirectory strictness bytes base count).run r = .ok x r') :
    x.1 = listedStreams bytes count r.rest := by
  have hpermissive : (readDirectory .permissive bytes base count).run r = .ok x r' := by
    cases strictness with
    | strict => exact readDirectory_up count hrun
    | permissive => exact hrun
  by_cases hcut : PaddingCut count r.rest
  · exact absurd hpermissive (readDirectory_cut count hcut x r')
  · obtain ⟨ds, r2, hlisted⟩ := readDirectory_listed base count hcut
    rw [hpermissive] at hlisted
    cases hlisted
    rfl

/-! ## The roles -/

/-- The first stream of a name in `seen`, or of a name that stands before it. -/
def firstRepeat : List (List UInt8) → List StreamHeader → Option StreamHeader
  | _, [] => none
  | seen, stream :: streams =>
      if seen.contains stream.nameBytes then some stream
      else firstRepeat (seen ++ [stream.nameBytes]) streams

theorem firstRepeat_of_seen {roles : Roles} {first : StreamHeader}
    (h : first.nameBytes ∈ roles.seen) (streams : List StreamHeader) :
    firstRepeat roles.seen (first :: streams) = some first :=
  if_pos (List.contains_iff_mem.mpr h)

theorem firstRepeat_of_new {roles : Roles} {first : StreamHeader}
    (h : first.nameBytes ∉ roles.seen) (streamBase : Nat) (streams : List StreamHeader) :
    firstRepeat roles.seen (first :: streams) =
      firstRepeat (roles.assign first streamBase).seen streams := by
  rw [assign_seen]
  exact if_neg (mt List.contains_iff_mem.mp h)

/-- Strict mode stops at the first name that is repeated, with the start of its stream. -/
theorem assignStreams_repeat (base : Nat) {stream : StreamHeader} (streams : List StreamHeader) :
    ∀ {roles : Roles}, firstRepeat roles.seen streams = some stream →
      assignStreams .strict base streams roles =
        .error (Error.new .malformed (satAdd base stream.offset.toNat) metadataContext) := by
  induction streams with
  | nil =>
      intro roles h
      cases h
  | cons first streams ih =>
      intro roles h
      rw [assignStreams]
      by_cases hseen : first.nameBytes ∈ roles.seen
      · rw [firstRepeat_of_seen hseen] at h
        cases h
        simp only [assignStream, hseen, if_true, Strictness.isStrict]
        rfl
      · rw [firstRepeat_of_new hseen (satAdd base first.offset.toNat)] at h
        rw [assignStream_of_new hseen]
        simp only [bind, Except.bind, ih h]

/-- Without a repeated name every stream is given its role. -/
theorem assignStreams_of_no_repeat (streams : List StreamHeader) :
    ∀ {roles : Roles}, firstRepeat roles.seen streams = none →
      ∃ x, assignStreams strictness base streams roles = .ok x := by
  induction streams with
  | nil =>
      intro roles _
      exact ⟨_, rfl⟩
  | cons first streams ih =>
      intro roles h
      by_cases hseen : first.nameBytes ∈ roles.seen
      · rw [firstRepeat_of_seen hseen] at h
        cases h
      · rw [firstRepeat_of_new hseen (satAdd base first.offset.toNat)] at h
        obtain ⟨x, hx⟩ := ih h
        exact ⟨_, ok_bind_iff.mpr
          ⟨_, assignStream_of_new hseen, ok_bind_iff.mpr ⟨x, hx, rfl⟩⟩⟩

/-! ## The table stream -/

/-- A stream that starts in the region, or whose start saturates where the region ends. -/
def StartsInside (base length : Nat) (offset : UInt32) : Prop :=
  offset.toNat ≤ length ∨ base + length = usizeMax

theorem startsInside_iff {length : Nat} (hmax : base + length ≤ usizeMax) :
    StartsInside base length offset ↔ satAdd base offset.toNat ≤ base + length := by
  rw [StartsInside, satAdd]
  omega

/-- The start of a stream is behind the start of the region. -/
theorem pointsInto_start_iff {α : Type} (hmax : base + bytes.length ≤ usizeMax)
    {kind : ErrorKind} {context : String} :
    PointsInto base (base + bytes.length)
      (.error (Error.new kind (satAdd base offset.toNat) context) : Result α) ↔
        StartsInside base bytes.length offset := by
  rw [pointsInto_new_iff, startsInside_iff hmax, satAdd]
  omega

/-- A table stream that starts behind the region has no bytes, and is refused there. -/
theorem pointsInto_tables_iff {stream : StreamHeader} {uncompressed : Bool}
    {ds ds' : List Diagnostic} (hmax : base + bytes.length ≤ usizeMax)
    (hdata : streamData strictness bytes base stream.offset stream.size = .ok (stream.data, ds)) :
    PointsInto base (base + bytes.length) (Tables.parse stream.data
      (satAdd base stream.offset.toNat) uncompressed strictness ds') ↔
        StartsInside base bytes.length stream.offset := by
  have hlength := streamData_length hdata
  have hstart : satAdd base stream.offset.toNat = min (base + stream.offset.toNat) usizeMax := rfl
  rw [startsInside_iff hmax]
  constructor
  · intro hinto
    by_contra hbehind
    have hnil : stream.data = [] := List.eq_nil_of_length_eq_zero (by omega)
    obtain ⟨e, herror, ho⟩ := Tables.parse_nil uncompressed strictness ds'
      (show satAdd base stream.offset.toNat ≤ usizeMax by omega)
    rw [hnil, herror] at hinto
    exact hbehind (hinto _ ho).2
  · intro hinside
    refine pointsInto_of_located fun e herror => ?_
    refine (Tables.parse_located (by omega) herror).mono (by omega) ?_
    omega

/-! ## The region -/

/-- The stream whose start an error names once the directory is read: in strict mode the
first of a repeated name, or else the table stream. -/
def reportedStream (strictness : Strictness) (streams : List StreamHeader) :
    Option StreamHeader :=
  (if strictness.isStrict then firstRepeat [] streams else none).or
    (streams.find? StreamHeader.isTables)

/-- No stream that is reported starts behind the region: none that strict mode finds cut, and
not the one that is reported once the directory is read. -/
structure ReportsInside (strictness : Strictness) (bytes : List UInt8) (base : Nat) : Prop where
  cut : strictness.isStrict = true →
    ∀ entry ∈ reachedEntries strictness bytes.length (streamCount bytes) (directoryBytes bytes),
      IsCut bytes.length entry.1 entry.2 → entry.1.toNat ≤ bytes.length
  reported : DirectoryReadable strictness bytes.length (streamCount bytes)
      (directoryBytes bytes) →
    ∀ stream, reportedStream strictness
      (listedStreams bytes (streamCount bytes) (directoryBytes bytes)) = some stream →
        StartsInside base bytes.length stream.offset

theorem parseAt_of_root_error (hroot : (readRoot strictness base).run
    (Reader.new bytes base metadataContext) = .error e r) :
    parseAt bytes base strictness = .error e := by
  rw [parseAt, parseRegion, run_bind_of_error hroot]

theorem parseAt_of_directory_error {root : Root × List Diagnostic}
    (hroot : (readRoot strictness base).run (Reader.new bytes base metadataContext) = .ok root r)
    (hdirectory : (readDirectory strictness bytes base root.1.streamCount.toNat).run r =
      .error e r') : parseAt bytes base strictness = .error e := by
  rw [parseAt, parseRegion, run_bind_of_ok hroot]
  dsimp only
  rw [run_bind_of_error hdirectory]

theorem parseAt_of_roles_error {root : Root × List Diagnostic} {r1 r2 : Reader}
    {directory : List StreamHeader × List Diagnostic}
    (hroot : (readRoot strictness base).run (Reader.new bytes base metadataContext) = .ok root r1)
    (hdirectory : (readDirectory strictness bytes base root.1.streamCount.toNat).run r1 =
      .ok directory r2)
    (hroles : assignStreams strictness base directory.1 Roles.none = .error e) :
    parseAt bytes base strictness = .error e := by
  have hroles' : (Wire.ofExcept (assignStreams strictness base directory.1 Roles.none) :
      Read (Roles × List Diagnostic)).run r2 = .error e r2 := by
    rw [hroles]
    rfl
  rw [parseAt, parseRegion, run_bind_of_ok hroot]
  dsimp only
  rw [run_bind_of_ok hdirectory, run_bind_of_error hroles']

/-- Without a table stream strict mode reports the start of the region. -/
theorem pointsInto_parseTables_none {ds : List Diagnostic} :
    PointsInto base (base + bytes.length) (parseTables strictness base none ds) := by
  unfold parseTables
  by_cases hstrict : strictness.isStrict = true
  · simp only [hstrict, if_true]
    exact pointsInto_new_iff.mpr ⟨le_rfl, Nat.le_add_right _ _⟩
  · simp only [hstrict]
    exact pointsInto_ok _ _ _

/-- Behind the directory only the stream that is reported can take an error out of the
region. -/
theorem pointsInto_directory_iff {root : Root × List Diagnostic} {r1 r2 : Reader}
    {directory : List StreamHeader × List Diagnostic} (hmax : base + bytes.length ≤ usizeMax)
    (hroot : (readRoot strictness base).run (Reader.new bytes base metadataContext) = .ok root r1)
    (hdirectory : (readDirectory strictness bytes base root.1.streamCount.toNat).run r1 =
      .ok directory r2) :
    PointsInto base (base + bytes.length) (parseAt bytes base strictness) ↔
      ∀ stream, reportedStream strictness directory.1 = some stream →
        StartsInside base bytes.length stream.offset := by
  cases hrepeat : (if strictness.isStrict then firstRepeat [] directory.1 else none) with
  | some stream =>
      have hreported : reportedStream strictness directory.1 = some stream := by
        rw [reportedStream, hrepeat, Option.some_or]
      cases strictness with
      | permissive => cases hrepeat
      | strict =>
          have hroles := assignStreams_repeat base directory.1
            (show firstRepeat Roles.none.seen directory.1 = some stream from hrepeat)
          rw [parseAt_of_roles_error hroot hdirectory hroles, pointsInto_start_iff hmax, hreported]
          simp only [Option.some.injEq, forall_eq']
  | none =>
      obtain ⟨roles, hroles⟩ :
          ∃ x, assignStreams strictness base directory.1 Roles.none = .ok x := by
        cases strictness with
        | strict => exact assignStreams_of_no_repeat _ hrepeat
        | permissive => exact exists_assignStreams base _ _
      have htable := assignStreams_tableStream directory.1 hroles fun _ =>
        ⟨List.not_mem_nil, List.not_mem_nil⟩
      have hnone : Roles.none.tableStream = none := rfl
      rw [hnone, Option.none_or] at htable
      rw [parseAt_of_directory hroot hdirectory hroles, pointsInto_map_iff, reportedStream,
        hrepeat, Option.none_or, htable]
      cases hfind : directory.1.find? StreamHeader.isTables with
      | none =>
          refine iff_of_true pointsInto_parseTables_none ?_
          intro stream hfalse
          cases hfalse
      | some stream =>
          obtain ⟨ds, hdata⟩ := readDirectory_streamData _ hdirectory stream
            (List.mem_of_find?_eq_some hfind)
          simp only [Option.some.injEq, forall_eq']
          exact pointsInto_tables_iff hmax hdata

/-- A directory that fails reports the cursor, or the stream that is cut. -/
theorem pointsInto_failed_iff (hmax : base + bytes.length ≤ usizeMax)
    (hr : Past bytes base 0 r) (hrest : r.rest = directoryBytes bytes)
    (hrun : (readDirectory strictness bytes base (streamCount bytes)).run r = .error e r') :
    PointsInto base (base + bytes.length) (.error e : Result Metadata) ↔
      ReportsInside strictness bytes base := by
  constructor
  · intro hinto
    refine ⟨?_, ?_⟩
    · intro hstrict entry hentry hrange
      rw [← hrest] at hentry
      obtain ⟨e', r2, hrun', _, rfl⟩ := readDirectory_cutError base _ hentry hstrict hrange
      rw [hrun] at hrun'
      cases hrun'
      have hhi := (pointsInto_new_iff.mp hinto).2
      omega
    · intro hreadable
      rw [← hrest, directoryReadable_iff base] at hreadable
      obtain ⟨x, r2, hok⟩ := hreadable
      rw [hrun] at hok
      cases hok
  · intro hreports
    rcases readDirectory_error hmax _ hr hrun with hlocated |
      ⟨entry, hentry, ⟨hstrict, hrange⟩, rfl⟩
    · refine pointsInto_of_located fun e' he' => ?_
      cases he'
      exact hlocated
    · rw [hrest] at hentry
      have hhi := hreports.cut hstrict entry hentry hrange
      exact pointsInto_new_iff.mpr ⟨Nat.le_add_right _ _, Nat.add_le_add_left hhi _⟩

/-- A directory that is read had no stream that is cut. -/
theorem reportsInside_iff {x : List StreamHeader × List Diagnostic}
    (hrest : r.rest = directoryBytes bytes)
    (hrun : (readDirectory strictness bytes base (streamCount bytes)).run r = .ok x r') :
    ReportsInside strictness bytes base ↔
      ∀ stream, reportedStream strictness x.1 = some stream →
        StartsInside base bytes.length stream.offset := by
  rw [readDirectory_streams hrun, hrest]
  constructor
  · intro hreports
    refine hreports.reported ?_
    rw [← hrest, directoryReadable_iff base]
    exact ⟨x, r', hrun⟩
  · intro hreported
    refine ⟨?_, fun _ => hreported⟩
    intro hstrict entry hentry hrange
    rw [← hrest] at hentry
    obtain ⟨e, r2, herror, _⟩ := readDirectory_cutError base _ hentry hstrict hrange
    rw [hrun] at herror
    cases herror

/-- The errors of a region point into it exactly when no stream that is reported starts
behind it. -/
theorem parseAt_pointsInto_iff (hmax : base + bytes.length ≤ usizeMax) :
    PointsInto base (base + bytes.length) (parseAt bytes base strictness) ↔
      (RootReadable strictness bytes → ReportsInside strictness bytes base) := by
  cases hroot : (readRoot strictness base).run (Reader.new bytes base metadataContext) with
  | error e r =>
      have hroot' : ¬ RootReadable strictness bytes := by
        rw [rootReadable_iff base]
        rintro ⟨x, r', hok⟩
        rw [hroot] at hok
        cases hok
      refine iff_of_true ?_ fun hreadable => absurd hreadable hroot'
      rw [parseAt_of_root_error hroot]
      refine pointsInto_of_located fun e' he' => ?_
      cases he'
      exact (exits_readRoot hmax).error _ _ _ (Past.new _ _ _) hroot
  | ok root r1 =>
      obtain ⟨hcount, hrest⟩ := readRoot_ok hroot
      obtain ⟨_, _, _, _, _, hr1⟩ := readRoot_ok_iff.mp hroot
      have hpast : Past bytes base 0 r1 := by
        rw [hr1]
        exact ⟨rfl, rfl, Nat.zero_le _⟩
      rw [imp_iff_right ((rootReadable_iff base).mpr ⟨root, r1, hroot⟩)]
      cases hdirectory : (readDirectory strictness bytes base root.1.streamCount.toNat).run r1 with
      | error e r2 =>
          rw [parseAt_of_directory_error hroot hdirectory]
          rw [hcount] at hdirectory
          exact pointsInto_failed_iff hmax hpast hrest hdirectory
      | ok directory r2 =>
          rw [pointsInto_directory_iff hmax hroot hdirectory]
          rw [hcount] at hdirectory
          exact (reportsInside_iff hrest hdirectory).symm

end Metadata

end Cildec
