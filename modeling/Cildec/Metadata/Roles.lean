import Cildec.Lib.Narrow
import Cildec.Metadata.Parse

/-!
# Which stream is which (`src/metadata.rs`)

The loop over the streams gives a role to the first stream of each name. A heap is therefore
that of the first stream of its name (`assignStreams_field`), and the table stream is the
first that has either of its names (`assignStreams_tableStream`).
-/

namespace Cildec

open Wire

namespace Metadata

/-- The stream has one of the names of a table stream. -/
def StreamHeader.isTables (stream : StreamHeader) : Bool :=
  stream.nameBytes == tablesName || stream.nameBytes == uncompressedName

/-- What the table stream is remembered by: its bytes, where it starts and its format. -/
def StreamHeader.tableRole (base : Nat) (stream : StreamHeader) : List UInt8 × Nat × Bool :=
  (stream.data, satAdd base stream.offset.toNat, stream.nameBytes == uncompressedName)

/-! ## One stream -/

section Assign

variable (roles : Roles) (stream : StreamHeader) (streamBase : Nat)

theorem assign_seen : (roles.assign stream streamBase).seen = roles.seen ++ [stream.nameBytes] := by
  unfold Roles.assign
  simp only
  split_ifs <;> rfl

theorem assign_strings : (roles.assign stream streamBase).strings =
    if stream.nameBytes = stringsName then .new stream.data streamBase else roles.strings := by
  unfold Roles.assign
  simp only
  split_ifs <;> rfl

theorem assign_userStrings : (roles.assign stream streamBase).userStrings =
    if stream.nameBytes = userStringsName then .new stream.data streamBase
    else roles.userStrings := by
  unfold Roles.assign
  simp only
  by_cases hstrings : stream.nameBytes = stringsName
  · rw [hstrings]
    rfl
  · rw [if_neg hstrings]
    split_ifs <;> rfl

theorem assign_blobs : (roles.assign stream streamBase).blobs =
    if stream.nameBytes = blobName then .new stream.data streamBase else roles.blobs := by
  unfold Roles.assign
  simp only
  by_cases hstrings : stream.nameBytes = stringsName
  · rw [hstrings]
    rfl
  · by_cases huserStrings : stream.nameBytes = userStringsName
    · rw [huserStrings]
      rfl
    · rw [if_neg hstrings, if_neg huserStrings]
      split_ifs <;> rfl

theorem assign_guids : (roles.assign stream streamBase).guids =
    if stream.nameBytes = guidName then .new stream.data streamBase else roles.guids := by
  unfold Roles.assign
  simp only
  by_cases hstrings : stream.nameBytes = stringsName
  · rw [hstrings]
    rfl
  · by_cases huserStrings : stream.nameBytes = userStringsName
    · rw [huserStrings]
      rfl
    · by_cases hblobs : stream.nameBytes = blobName
      · rw [hblobs]
        rfl
      · rw [if_neg hstrings, if_neg huserStrings, if_neg hblobs]
        split_ifs <;> rfl

/-- A stream that has a name of the table stream, and one that has neither. -/
theorem assign_tableStream : (roles.assign stream streamBase).tableStream =
    if stream.isTables then
      roles.tableStream.or (some (stream.data, streamBase, stream.nameBytes == uncompressedName))
    else roles.tableStream := by
  by_cases htables : stream.nameBytes = tablesName
  · simp only [Roles.assign, StreamHeader.isTables, htables]
    cases roles.tableStream with
    | none => rfl
    | some role => rfl
  · by_cases huncompressed : stream.nameBytes = uncompressedName
    · simp only [Roles.assign, StreamHeader.isTables, huncompressed]
      cases roles.tableStream with
      | none => rfl
      | some role => rfl
    · have hneither : stream.isTables = false := by
        rw [StreamHeader.isTables, Bool.or_eq_false_iff, beq_eq_false_iff_ne, beq_eq_false_iff_ne]
        exact ⟨htables, huncompressed⟩
      rw [hneither, if_neg Bool.false_ne_true]
      simp only [Roles.assign, if_neg htables, if_neg huncompressed]
      split_ifs <;> rfl

end Assign

/-! ## The loop -/

theorem assignStream_of_new {strictness : Strictness} {base : Nat} {roles : Roles}
    {stream : StreamHeader} (h : stream.nameBytes ∉ roles.seen) :
    assignStream strictness base roles stream =
      .ok (roles.assign stream (satAdd base stream.offset.toNat), []) := if_neg h

/-- A stream of a name that was seen is passed over. -/
theorem assignStream_ok {strictness : Strictness} {base : Nat} {roles : Roles}
    {stream : StreamHeader} {x : Roles × List Diagnostic}
    (hok : assignStream strictness base roles stream = .ok x) :
    (stream.nameBytes ∈ roles.seen ∧ x.1 = roles) ∨
      (stream.nameBytes ∉ roles.seen ∧
        x.1 = roles.assign stream (satAdd base stream.offset.toNat)) := by
  unfold assignStream at hok
  simp only at hok
  split at hok
  · rename_i hseen
    split at hok
    · cases hok
    · cases hok
      exact .inl ⟨hseen, rfl⟩
  · rename_i hnew
    cases hok
    exact .inr ⟨hnew, rfl⟩

/-- The loop always ends in permissive mode. -/
theorem exists_assignStreams (base : Nat) (streams : List StreamHeader) :
    ∀ roles, ∃ x, assignStreams .permissive base streams roles = .ok x := by
  induction streams with
  | nil =>
      intro roles
      exact ⟨_, rfl⟩
  | cons stream streams ih =>
      intro roles
      obtain ⟨first, hfirst⟩ : ∃ x, assignStream .permissive base roles stream = .ok x := by
        unfold assignStream
        simp only
        split
        · exact ⟨_, rfl⟩
        · exact ⟨_, rfl⟩
      obtain ⟨rest, hrest⟩ := ih first.1
      exact ⟨_, ok_bind_iff.mpr ⟨first, hfirst, ok_bind_iff.mpr ⟨rest, hrest, rfl⟩⟩⟩

/-- Streams of different names, none of which was seen, are given their roles in silence. -/
theorem assignStreams_distinct (strictness : Strictness) (base : Nat)
    (streams : List StreamHeader) :
    ∀ roles : Roles, (streams.map StreamHeader.nameBytes).Nodup →
      (∀ stream ∈ streams, stream.nameBytes ∉ roles.seen) →
      ∃ roles', assignStreams strictness base streams roles = .ok (roles', []) := by
  induction streams with
  | nil =>
      intro roles _ _
      exact ⟨roles, rfl⟩
  | cons stream streams ih =>
      intro roles hnodup hnew
      rw [List.map_cons, List.nodup_cons] at hnodup
      rw [List.forall_mem_cons] at hnew
      obtain ⟨roles', hrest⟩ := ih (roles.assign stream (satAdd base stream.offset.toNat))
        hnodup.2 (by
          intro other hother
          rw [assign_seen, List.mem_append, List.mem_singleton, not_or]
          refine ⟨hnew.2 other hother, ?_⟩
          intro hname
          exact hnodup.1 (hname ▸ List.mem_map_of_mem hother))
      exact ⟨roles', ok_bind_iff.mpr
        ⟨_, assignStream_of_new hnew.1, ok_bind_iff.mpr ⟨_, hrest, rfl⟩⟩⟩

/-- A part of the roles that only streams of one name set, and set to a value of their own:
after the loop it is that of the first stream of the name. -/
theorem assignStreams_field {β : Type} {field : Roles → β} {name : List UInt8}
    {value : StreamHeader → Nat → β}
    (hassign : ∀ roles stream streamBase, field (roles.assign stream streamBase) =
      if stream.nameBytes = name then value stream streamBase else field roles)
    {strictness : Strictness} {base : Nat} (streams : List StreamHeader) :
    ∀ {roles : Roles} {x : Roles × List Diagnostic},
      assignStreams strictness base streams roles = .ok x →
        field x.1 = if name ∈ roles.seen then field roles
          else ((streams.find? (·.nameBytes == name)).map fun stream =>
            value stream (satAdd base stream.offset.toNat)).getD (field roles) := by
  induction streams with
  | nil =>
      intro roles x hok
      cases hok
      simp
  | cons stream streams ih =>
      intro roles x hok
      obtain ⟨first, hfirst, hok⟩ := ok_bind_iff.mp hok
      obtain ⟨rest, hrest, hpure⟩ := ok_bind_iff.mp hok
      cases hpure
      rw [ih hrest]
      rcases assignStream_ok hfirst with ⟨hseen, hsame⟩ | ⟨hnew, hsame⟩
      · rw [hsame]
        by_cases hname : name ∈ roles.seen
        · rw [if_pos hname, if_pos hname]
        · have hne : stream.nameBytes ≠ name := fun h => hname (h ▸ hseen)
          rw [if_neg hname, if_neg hname, List.find?_cons_of_neg (by simpa using hne)]
      · rw [hsame, assign_seen, hassign]
        by_cases hne : stream.nameBytes = name
        · rw [← hne, if_neg hnew, if_pos rfl, List.find?_cons_of_pos (by simp)]
          simp
        · rw [if_neg hne, List.find?_cons_of_neg (by simpa using hne)]
          simp [Ne.symm hne]

/-- The table stream is the first stream that has one of its names. -/
theorem assignStreams_tableStream {strictness : Strictness} {base : Nat}
    (streams : List StreamHeader) :
    ∀ {roles : Roles} {x : Roles × List Diagnostic},
      assignStreams strictness base streams roles = .ok x →
      (roles.tableStream = none → tablesName ∉ roles.seen ∧ uncompressedName ∉ roles.seen) →
        x.1.tableStream = roles.tableStream.or
          ((streams.find? StreamHeader.isTables).map (StreamHeader.tableRole base)) := by
  induction streams with
  | nil =>
      intro roles x hok _
      cases hok
      simp
  | cons stream streams ih =>
      intro roles x hok hinv
      obtain ⟨first, hfirst, hok⟩ := ok_bind_iff.mp hok
      obtain ⟨rest, hrest, hpure⟩ := ok_bind_iff.mp hok
      cases hpure
      rcases assignStream_ok hfirst with ⟨hseen, hsame⟩ | ⟨hnew, hsame⟩
      · rw [ih hrest (hsame ▸ hinv), hsame]
        cases htable : roles.tableStream with
        | some role => rfl
        | none =>
            -- had a table stream been dropped, one would have been seen before
            have hother : stream.isTables = false := by
              obtain ⟨htables, huncompressed⟩ := hinv htable
              rw [StreamHeader.isTables, Bool.or_eq_false_iff, beq_eq_false_iff_ne, beq_eq_false_iff_ne]
              exact ⟨fun h => htables (h ▸ hseen), fun h => huncompressed (h ▸ hseen)⟩
            rw [List.find?_cons_of_neg (by rw [hother]; exact Bool.false_ne_true)]
      · have htable := assign_tableStream roles stream (satAdd base stream.offset.toNat)
        have hinv' : first.1.tableStream = none →
            tablesName ∉ first.1.seen ∧ uncompressedName ∉ first.1.seen := by
          rw [hsame, htable, assign_seen]
          intro hnone
          cases hother : stream.isTables with
          | true => simp [hother] at hnone
          | false =>
              rw [hother, if_neg Bool.false_ne_true] at hnone
              rw [StreamHeader.isTables, Bool.or_eq_false_iff, beq_eq_false_iff_ne,
                beq_eq_false_iff_ne] at hother
              simp [hinv hnone, Ne.symm hother.1, Ne.symm hother.2]
        rw [ih hrest hinv', hsame, htable]
        cases hother : stream.isTables with
        | true =>
            rw [if_pos rfl, List.find?_cons_of_pos hother, Option.or_assoc]
            rfl
        | false =>
            rw [if_neg Bool.false_ne_true,
              List.find?_cons_of_neg (by rw [hother]; exact Bool.false_ne_true)]

end Metadata

end Cildec
