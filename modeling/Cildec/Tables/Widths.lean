import Cildec.Tables.Coded
import Cildec.Tables.Stream

/-!
# The widths of index columns

The width rule speaks of row counts and the fit of encoded values. The two meet at the
largest RID: a value is its RID moved past the tag bits, so it stays below `2 ^ 16` exactly
while the RID stays below `smallRowLimit`.
-/

namespace Cildec

open Wire

namespace CodedIndex

/-- The token refers to a table that the kind can encode. -/
def Covers (kind : CodedIndex) (token : Token) : Prop :=
  ∃ table, some table ∈ kind.tables ∧ token.table = some table

theorem exists_table (kind : CodedIndex) : ∃ table, some table ∈ kind.tables := by
  cases kind
  case customAttributeType => exact ⟨.methodDef, by decide⟩
  all_goals exact ⟨_, List.mem_cons_self⟩

/-- A covered token is encoded with a tag below its RID. -/
theorem encode_of_covers {kind : CodedIndex} {token : Token} (h : kind.Covers token) :
    ∃ tag, tag < 2 ^ kind.tagBits ∧
      kind.encode token = some (token.rid * 2 ^ kind.tagBits + tag) := by
  obtain ⟨table, hmem, htable⟩ := h
  obtain ⟨tag, htag⟩ := List.getElem?_of_mem hmem
  have hfind := findIdx_of_tag (Option.join_eq_some_iff.mpr htag)
  have hle : 2 ^ 24 ≤ (2 ^ 32 - 1) >>> kind.tagBits := by cases kind <;> decide
  have hrid := token.rid_lt
  exact ⟨tag, (findIdx_tables hfind).2,
    encode_eq_some_iff.mpr ⟨table, tag, htable, hfind, by omega, rfl⟩⟩

theorem smallRowLimit_mul (kind : CodedIndex) :
    kind.smallRowLimit * 2 ^ kind.tagBits = 2 ^ 16 := by
  cases kind <;> decide

/-- A value fits two bytes exactly when its RID is below the limit. -/
theorem value_lt_iff {kind : CodedIndex} {rid tag : Nat} (htag : tag < 2 ^ kind.tagBits) :
    rid * 2 ^ kind.tagBits + tag < 2 ^ 16 ↔ rid < kind.smallRowLimit := by
  rw [← kind.smallRowLimit_mul]
  constructor
  · intro hlt
    have hmul : rid * 2 ^ kind.tagBits < kind.smallRowLimit * 2 ^ kind.tagBits := by omega
    exact Nat.lt_of_mul_lt_mul_right hmul
  · intro hlt
    have hmul : (rid + 1) * 2 ^ kind.tagBits ≤ kind.smallRowLimit * 2 ^ kind.tagBits :=
      Nat.mul_le_mul_right _ hlt
    rw [Nat.succ_mul] at hmul
    omega

theorem columnWidth_eq_two_iff {kind : CodedIndex} {rows : Nat} :
    kind.columnWidth rows = 2 ↔ rows < kind.smallRowLimit := by
  simp only [columnWidth]
  split
  · exact iff_of_true rfl ‹_›
  · exact iff_of_false (by decide) ‹_›

theorem columnWidth_cases (kind : CodedIndex) (rows : Nat) :
    kind.columnWidth rows = 2 ∨ kind.columnWidth rows = 4 := by
  simp only [columnWidth]
  split
  · exact .inl rfl
  · exact .inr rfl

/-- Every value is a `u32`: the largest tag has five bits and a RID has 24. -/
theorem value_lt (kind : CodedIndex) {rid tag : Nat} (hrid : rid < 2 ^ 24)
    (htag : tag < 2 ^ kind.tagBits) : rid * 2 ^ kind.tagBits + tag < 2 ^ 32 := by
  have hbits : 2 ^ kind.tagBits ≤ 2 ^ 5 := Nat.pow_le_pow_right (by decide) kind.tagBits_le
  have hmul : (rid + 1) * 2 ^ kind.tagBits ≤ 2 ^ 24 * 2 ^ 5 := Nat.mul_le_mul hrid hbits
  rw [Nat.succ_mul] at hmul
  omega

/-- The value of a covered token is below what the width of its column holds. -/
theorem value_lt_width {kind : CodedIndex} {rows rid tag : Nat} (hle : rid ≤ rows)
    (hrid : rid < 2 ^ 24) (htag : tag < 2 ^ kind.tagBits) :
    rid * 2 ^ kind.tagBits + tag < 2 ^ (8 * kind.columnWidth rows) := by
  rcases kind.columnWidth_cases rows with hwidth | hwidth
  · have hlimit := columnWidth_eq_two_iff.mp hwidth
    rw [hwidth]
    exact (value_lt_iff htag).mpr (Nat.lt_of_le_of_lt hle hlimit)
  · rw [hwidth]
    exact kind.value_lt hrid htag

/-- The values of all rows fit two bytes exactly in a column of two bytes. -/
theorem columnWidth_eq_two_iff_fits {kind : CodedIndex} {rows : Nat} (hrows : rows < 2 ^ 24) :
    kind.columnWidth rows = 2 ↔
      ∀ token v, kind.Covers token → token.rid ≤ rows → kind.encode token = some v →
        v < 2 ^ 16 := by
  rw [columnWidth_eq_two_iff]
  constructor
  · intro hlimit token v hcovers hle hencode
    obtain ⟨tag, htag, hvalue⟩ := encode_of_covers hcovers
    rw [hvalue] at hencode
    cases hencode
    exact (value_lt_iff htag).mpr (Nat.lt_of_le_of_lt hle hlimit)
  · intro hfits
    -- the last row of any table of the kind decides
    obtain ⟨table, hmem⟩ := kind.exists_table
    have hcovers : kind.Covers (Token.new table rows) := ⟨table, hmem, Token.table_new table rows⟩
    obtain ⟨tag, htag, hvalue⟩ := encode_of_covers hcovers
    have hrid := Token.rid_new table hrows
    have hlt := hfits _ _ hcovers (Nat.le_of_eq hrid) hvalue
    rw [hrid] at hlt
    exact (value_lt_iff htag).mp hlt

end CodedIndex

/-- The rows that a simple index column reaches: those of its table and of the `*Ptr` table
that can redirect into it. -/
def Reaches (rowCounts : TableId → Nat) (target : TableId) (rid : Nat) : Prop :=
  rid ≤ rowCounts target ∨ ∃ ptr, target.ptrSource = some ptr ∧ rid ≤ rowCounts ptr

theorem columnWidth_rid_eq_two_iff (target : TableId) (rowCounts : TableId → Nat)
    (stringsWide guidsWide blobsWide : Bool) :
    columnWidth (.rid target) rowCounts stringsWide guidsWide blobsWide = 2 ↔
      ∀ rid, Reaches rowCounts target rid → rid < 2 ^ 16 := by
  have hwidth : ∀ rows : Nat, (if rows < 0x10000 then 2 else 4) = 2 ↔ rows < 2 ^ 16 := by
    intro rows
    split
    · exact iff_of_true rfl ‹_›
    · exact iff_of_false (by decide) ‹_›
  simp only [columnWidth, hwidth]
  cases hptr : target.ptrSource with
  | none =>
      constructor
      · intro hlt rid hreach
        rcases hreach with hle | ⟨ptr, hsome, _⟩
        · exact Nat.lt_of_le_of_lt hle hlt
        · rw [hptr] at hsome
          cases hsome
      · intro h
        exact h _ (.inl (Nat.le_refl _))
  | some ptr =>
      constructor
      · intro hlt rid hreach
        obtain ⟨htarget, hsource⟩ := max_lt_iff.mp hlt
        rcases hreach with hle | ⟨ptr', hsome, hle⟩
        · exact Nat.lt_of_le_of_lt hle htarget
        · rw [hptr] at hsome
          cases hsome
          exact Nat.lt_of_le_of_lt hle hsource
      · intro h
        exact max_lt (h _ (.inl (Nat.le_refl _))) (h _ (.inr ⟨ptr, hptr, Nat.le_refl _⟩))

/-- Column widths are exactly sufficient: every token of a coded index column has a value
that fits the column and is read back from it, and the narrow form is chosen exactly when
it suffices, for coded and for simple indexes. -/
theorem columnWidth_exact :
    (∀ (kind : CodedIndex) (rows : Nat), rows < 2 ^ 24 →
      (∀ token, kind.Covers token → token.rid ≤ rows →
        ∃ v, kind.encode token = some v ∧ v < 2 ^ (8 * kind.columnWidth rows) ∧
          ∀ pre post offset,
            (readUintAt (pre ++ (leBytes (kind.columnWidth rows) v ++ post)) pre.length
              (kind.columnWidth rows)).map (kind.decode · offset) = some (.ok token)) ∧
      (kind.columnWidth rows = 2 ↔
        ∀ token v, kind.Covers token → token.rid ≤ rows → kind.encode token = some v →
          v < 2 ^ 16)) ∧
    (∀ (target : TableId) (rowCounts : TableId → Nat) (stringsWide guidsWide blobsWide : Bool),
      columnWidth (.rid target) rowCounts stringsWide guidsWide blobsWide = 2 ↔
        ∀ rid, Reaches rowCounts target rid → rid < 2 ^ 16) := by
  refine ⟨?_, columnWidth_rid_eq_two_iff⟩
  intro kind rows hrows
  refine ⟨?_, CodedIndex.columnWidth_eq_two_iff_fits hrows⟩
  intro token hcovers hle
  obtain ⟨tag, htag, hencode⟩ := CodedIndex.encode_of_covers hcovers
  have hlt := CodedIndex.value_lt_width hle token.rid_lt htag
  refine ⟨_, hencode, hlt, ?_⟩
  intro pre post offset
  rw [Nat.pow_mul] at hlt
  rw [readUintAt_append (kind.columnWidth_cases rows) hlt, Option.map_some,
    CodedIndex.decode_encode offset hencode]

end Cildec
