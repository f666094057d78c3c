import Cildec.Tables.Lookup

/-!
# Rows by parent (`src/tables/lookup.rs`)

`rows_for_parent` re-encodes a token as a raw key and looks the key up. `rowsForParent_iff`
says exactly when that finds the rows whose key column denotes the token: a simple index
carries no table, and a RID of more than 24 bits does not survive in a token.
-/

namespace Cildec

open Wire

/-- The coded index kind of a sorted table key column, when it is coded. -/
def sortKeyCoded : TableId → Option CodedIndex
  | .constant => some .hasConstant
  | .customAttribute => some .hasCustomAttribute
  | .fieldMarshal => some .hasFieldMarshal
  | .declSecurity => some .hasDeclSecurity
  | .methodSemantics => some .hasSemantics
  | .implMap => some .memberForwarded
  | .genericParam => some .typeOrMethodDef
  | .customDebugInformation => some .hasCustomDebugInformation
  | _ => none

/-- What a key column of a kind denotes: a coded index its token, a simple index the
token of its table. -/
def keyToken : ColumnKind → Nat → Option Token
  | .coded kind, v => (kind.decode v 0).toOption
  | .rid target, v => some (Token.new target v)
  | _, _ => none

/-- The RID a raw key holds. -/
def keyRid : ColumnKind → Nat → Nat
  | .coded kind, v => v / 2 ^ kind.tagBits
  | _, v => v

/-- The kind of the key column of a sorted table. -/
def keyKind (table : TableId) (column : Nat) : ColumnKind := (columnsOf table).getD column .u32

/-- A sort key is a coded index of the kind the lookups encode with, or a simple index. -/
theorem keyKind_cases {table : TableId} {column : Nat} (h : sortKeyColumn table = some column) :
    (∃ kind, sortKeyCoded table = some kind ∧ keyKind table column = .coded kind) ∨
      (sortKeyCoded table = none ∧ ∃ target, keyKind table column = .rid target) := by
  cases table <;> cases h <;>
    first
      | exact .inl ⟨_, rfl, rfl⟩
      | exact .inr ⟨rfl, _, rfl⟩

/-- A value with a RID of 24 bits denotes a token exactly when it is its encoding. -/
theorem decode_eq_iff_encode {kind : CodedIndex} {v : Nat} {parent : Token}
    (hrid : keyRid (.coded kind) v < 2 ^ 24) :
    keyToken (.coded kind) v = some parent ↔ kind.encode parent = some v := by
  constructor
  · intro h
    exact (CodedIndex.encode_decode_iff (ok_of_toOption h)).mpr hrid
  · intro h
    simp only [keyToken, CodedIndex.decode_encode 0 h]
    rfl

/-- The encoding of a token has a RID of 24 bits. -/
theorem keyRid_encode_lt {kind : CodedIndex} {parent : Token} {v : Nat}
    (h : kind.encode parent = some v) : keyRid (.coded kind) v < 2 ^ 24 :=
  (CodedIndex.encode_decode_iff (CodedIndex.decode_encode 0 h)).mp h

/-- A token that some value denotes has an encoding. -/
theorem encode_of_keyToken {kind : CodedIndex} {parent : Token} {v : Nat}
    (h : keyToken (.coded kind) v = some parent) : ∃ key, kind.encode parent = some key := by
  obtain ⟨table, htag, rfl⟩ := CodedIndex.decode_eq_ok_iff.mp (ok_of_toOption h)
  exact CodedIndex.exists_encode htag _

/-- A simple index of a table denotes the token with its low 24 bits. -/
theorem new_eq_iff {target : TableId} {v : Nat} {parent : Token} :
    Token.new target v = parent ↔ parent.table = some target ∧ v % 2 ^ 24 = parent.rid := by
  constructor
  · rintro rfl
    exact ⟨Token.table_new target v, (Token.rid_new_mod target v).symm⟩
  · rintro ⟨htable, hrid⟩
    have hnew := Token.new_rid htable
    rw [← hrid] at hnew
    rw [← hnew]
    refine congrArg Token.mk (UInt32.toNat_inj.mp ?_)
    show (Token.new target v).value.toNat = (Token.new target (v % 2 ^ 24)).value.toNat
    rw [Token.value_new, Token.value_new, Nat.mod_mod]

namespace Tables

/-- Encodes `parent` as the raw sort key of `table`. -/
def sortKeyFor (table : TableId) (parent : Token) : Option Nat :=
  match sortKeyCoded table with
  | some kind => kind.encode parent
  | none => some parent.rid

/-- The RIDs of every row of `table` owned by `parent`. -/
def rowsForParent (t : Tables) (table : TableId) (parent : Token) : Checked (List Nat) :=
  match sortKeyFor table parent with
  | some key => t.rowsWithKey table key
  | none => return []

/-- The rows whose key column denotes `parent`, in ascending order. -/
def rowsDenoting (t : Tables) (table : TableId) (column : Nat) (parent : Token) : List Nat :=
  (List.range' 1 (t.rowCount table)).filter fun rid =>
    keyToken (keyKind table column) (t.columnValue table rid column) = some parent

/-- What the lookup of a parent needs: a key that is a simple index of another table is
not mistaken for it, no key that denotes it has a RID of more than 24 bits, and a search
has an end. -/
structure KeysTell (t : Tables) (table : TableId) (column : Nat) (parent : Token) : Prop where
  table_eq : ∀ target, keyKind table column = .rid target → parent.table ≠ some target →
    ∀ rid, t.HasRow table rid → t.columnValue table rid column ≠ parent.rid
  narrow : ∀ rid, t.HasRow table rid → 2 ^ 24 ≤ keyRid (keyKind table column)
      (t.columnValue table rid column) →
    keyToken (keyKind table column) (t.columnValue table rid column) ≠ some parent
  searchable : (sortKeyFor table parent).isSome → t.isSorted table →
    t.rowCount table + 1 < 2 ^ 32

/-- Whether the key of a parent and the meaning of a cell agree, cell by cell. -/
theorem cell_denotes_iff {table : TableId} {column : Nat} {parent : Token}
    (hcolumn : sortKeyColumn table = some column) {key : Nat}
    (hkey : sortKeyFor table parent = some key) (v : Nat) :
    (v = key ↔ keyToken (keyKind table column) v = some parent) ↔
      (∀ target, keyKind table column = .rid target → parent.table ≠ some target →
        v ≠ parent.rid) ∧
      (2 ^ 24 ≤ keyRid (keyKind table column) v →
        keyToken (keyKind table column) v ≠ some parent) := by
  -- a coded key names its table and loses high bits of the RID; a plain one has no table
  rcases keyKind_cases hcolumn with ⟨kind, hcoded, hkind⟩ | ⟨hcoded, target, hkind⟩
  · have hencode : kind.encode parent = some key := by
      simpa only [sortKeyFor, hcoded] using hkey
    rw [hkind]
    by_cases hrid : keyRid (.coded kind) v < 2 ^ 24
    · refine iff_of_true ?_ ⟨?_, ?_⟩
      · rw [decode_eq_iff_encode hrid, hencode, Option.some.injEq]
        exact eq_comm
      · intro target htarget
        cases htarget
      · intro hwide
        exact absurd hrid (Nat.not_lt.mpr hwide)
    · have hne : v ≠ key := by
        rintro rfl
        exact hrid (keyRid_encode_lt hencode)
      constructor
      · intro hagree
        refine ⟨?_, ?_⟩
        · intro target htarget
          cases htarget
        · intro _ hdenotes
          exact hne (hagree.mpr hdenotes)
      · rintro ⟨_, hnarrow⟩
        have hdenotes := hnarrow (Nat.not_lt.mp hrid)
        exact iff_of_false hne hdenotes
  · have hrid : parent.rid = key := by
      simpa only [sortKeyFor, hcoded, Option.some.injEq] using hkey
    subst hrid
    have hlt := parent.rid_lt
    simp only [hkind, keyToken, keyRid, ne_eq, Option.some.injEq, new_eq_iff,
      ColumnKind.rid.injEq]
    by_cases htable : parent.table = some target
    · by_cases hwide : 2 ^ 24 ≤ v
      · have hne : v ≠ parent.rid := by omega
        constructor
        · intro hagree
          exact ⟨fun _ _ _ => hne, fun _ hdenotes => hne (hagree.mpr hdenotes)⟩
        · rintro ⟨_, hnarrow⟩
          exact iff_of_false hne (hnarrow hwide)
      · have hmod : v % 2 ^ 24 = v := Nat.mod_eq_of_lt (Nat.not_le.mp hwide)
        refine iff_of_true ?_ ⟨?_, fun h => absurd h hwide⟩
        · rw [hmod]
          exact ⟨fun h => ⟨htable, h⟩, And.right⟩
        · rintro target' rfl hne
          exact absurd htable hne
    · have hnot : ¬(parent.table = some target ∧ v % 2 ^ 24 = parent.rid) :=
        fun h => htable h.1
      constructor
      · intro hagree
        exact ⟨fun _ _ _ hv => hnot (hagree.mp hv), fun _ => hnot⟩
      · rintro ⟨hother, _⟩
        exact iff_of_false (hother target rfl htable) hnot

/-- A token without a key is denoted by no cell. -/
theorem not_denotes_of_no_key {table : TableId} {column : Nat} {parent : Token}
    (hcolumn : sortKeyColumn table = some column) (hkey : sortKeyFor table parent = none)
    (v : Nat) : keyToken (keyKind table column) v ≠ some parent := by
  intro hdenotes
  rcases keyKind_cases hcolumn with ⟨kind, hcoded, hkind⟩ | ⟨hcoded, _⟩
  · rw [hkind] at hdenotes
    obtain ⟨key, hencode⟩ := encode_of_keyToken hdenotes
    simp only [sortKeyFor, hcoded, hencode] at hkey
    cases hkey
  · simp only [sortKeyFor, hcoded] at hkey
    cases hkey

namespace LaidOut

variable {t : Tables} {table : TableId}

/-- Two selections of the rows agree exactly when they agree on every row that exists. -/
theorem filter_rows_eq_iff {p q : Nat → Bool} :
    (List.range' 1 (t.rowCount table)).filter p = (List.range' 1 (t.rowCount table)).filter q ↔
      ∀ rid, t.HasRow table rid → p rid = q rid := by
  have hmem : ∀ rid, rid ∈ List.range' 1 (t.rowCount table) ↔ t.HasRow table rid := by
    intro rid
    rw [List.mem_range'_1, HasRow]
    omega
  constructor
  · intro heq rid hrow
    have hin : rid ∈ List.range' 1 (t.rowCount table) := (hmem rid).mpr hrow
    have hsame : rid ∈ (List.range' 1 (t.rowCount table)).filter p ↔
        rid ∈ (List.range' 1 (t.rowCount table)).filter q := by rw [heq]
    simp only [List.mem_filter, hin, true_and] at hsame
    exact Bool.eq_iff_iff.mpr hsame
  · intro hall
    exact List.filter_congr fun rid hrid => hall rid ((hmem rid).mp hrid)

end LaidOut

/-- A parent's key selects the rows that denote it exactly when the keys tell. -/
theorem LaidOut.rows_eq_iff {t : Tables} {table : TableId} {column : Nat} {parent : Token}
    (hcolumn : sortKeyColumn table = some column) {key : Nat}
    (hkey : sortKeyFor table parent = some key) :
    (∀ rid, t.HasRow table rid → (t.columnValue table rid column = key ↔
        keyToken (keyKind table column) (t.columnValue table rid column) = some parent)) ↔
      (∀ target, keyKind table column = .rid target → parent.table ≠ some target →
        ∀ rid, t.HasRow table rid → t.columnValue table rid column ≠ parent.rid) ∧
      (∀ rid, t.HasRow table rid → 2 ^ 24 ≤ keyRid (keyKind table column)
          (t.columnValue table rid column) →
        keyToken (keyKind table column) (t.columnValue table rid column) ≠ some parent) := by
  have hcell := fun rid => cell_denotes_iff hcolumn hkey (t.columnValue table rid column)
  constructor
  · intro hall
    refine ⟨?_, ?_⟩
    · intro target hkind htable rid hrow
      exact ((hcell rid).mp (hall rid hrow)).1 target hkind htable
    · intro rid hrow
      exact ((hcell rid).mp (hall rid hrow)).2
  · rintro ⟨htable, hnarrow⟩ rid hrow
    refine (hcell rid).mpr ⟨?_, hnarrow rid hrow⟩
    intro target hkind hne
    exact htable target hkind hne rid hrow

/-- A parent owns the rows that denote it, and the lookup returns exactly those, if and
only if the keys of the table tell the parent from every other one. -/
theorem rowsForParent_iff {data : List UInt8} {base : Nat} {uncompressed : Bool}
    {s : Strictness} {ds ds' : List Diagnostic} {t : Tables}
    (hrun : parse data base uncompressed s ds = .ok (t, ds')) {table : TableId} {column : Nat}
    (hcolumn : sortKeyColumn table = some column) (parent : Token) :
    t.rowsForParent table parent = .ok (t.rowsDenoting table column parent) ↔
      t.KeysTell table column parent := by
  obtain ⟨⟨_, _, hl⟩, hverified⟩ := parse_spec hrun
  cases hkey : sortKeyFor table parent with
  | none =>
      -- a parent that no key stands for is the parent of no row
      have hnothing := fun v => not_denotes_of_no_key hcolumn hkey v
      have hrows : t.rowsDenoting table column parent = [] := by
        rw [rowsDenoting, List.filter_eq_nil_iff]
        intro rid _
        simp [hnothing]
      refine iff_of_true ?_ ⟨?_, fun _ _ _ => hnothing _, ?_⟩
      · simp only [rowsForParent, hkey, hrows]
        rfl
      · intro target hkind
        rcases keyKind_cases hcolumn with ⟨kind, _, hcoded⟩ | ⟨hsimple, _⟩
        · rw [hcoded] at hkind
          cases hkind
        · simp only [sortKeyFor, hsimple] at hkey
          cases hkey
      · intro hsome
        rw [hkey] at hsome
        cases hsome
  | some key =>
      have hlookup : t.rowsForParent table parent = t.rowsWithKey table key := by
        simp only [rowsForParent, hkey]
      rw [hlookup]
      -- the search of a sorted table starts one RID behind its last row
      by_cases hend : t.isSorted table → t.rowCount table + 1 < 2 ^ 32
      · rw [hl.rowsWithKey_spec hverified hcolumn hend key,
          hl.rowsHolding_eq (sortKeyColumn_lt hcolumn), rowsDenoting, Except.ok.injEq,
          LaidOut.filter_rows_eq_iff]
        simp only [decide_eq_decide]
        rw [LaidOut.rows_eq_iff hcolumn hkey]
        constructor
        · rintro ⟨htable, hnarrow⟩
          exact ⟨htable, hnarrow, fun _ => hend⟩
        · intro htell
          exact ⟨htell.table_eq, htell.narrow⟩
      · have hsorted : t.isSorted table := by
          by_contra hno
          exact hend fun h => absurd h hno
        have hover : 2 ^ 32 ≤ t.rowCount table + 1 := Nat.not_lt.mp fun hlt => hend fun _ => hlt
        rw [rowsWithKey_overflow hcolumn hsorted hover]
        refine iff_of_false (fun h => by cases h) ?_
        intro htell
        exact hend (htell.searchable (by rw [hkey]; rfl))

/-- The `MethodDef` token of row 2 against `NestedClass` keys 1, 2 and 2. -/
theorem nestedClassStream_rowsForParent : ∃ t ds',
    parse nestedClassStream 0 false .strict [] = .ok (t, ds') ∧
      (t.rowsForParent .nestedClass (Token.new .methodDef 2) =
          .ok (t.rowsDenoting .nestedClass 0 (Token.new .methodDef 2)) ↔
        t.KeysTell .nestedClass 0 (Token.new .methodDef 2)) := by
  have hok : (parse nestedClassStream 0 false .strict []).isOk := by decide +kernel
  obtain ⟨⟨t, ds'⟩, hrun⟩ := exists_ok_of_isOk hok
  exact ⟨t, ds', hrun, rowsForParent_iff hrun rfl _⟩

/-- A method token is taken for the type token with its RID: it owns two nested classes. -/
theorem nestedClassStream_foreign_parent : ¬ ∀ (data : List UInt8) (base : Nat)
    (uncompressed : Bool) (s : Strictness) (ds ds' : List Diagnostic) (t : Tables),
    parse data base uncompressed s ds = .ok (t, ds') →
    ∀ table column, sortKeyColumn table = some column →
      (∀ rid, t.HasRow table rid →
        (keyToken (keyKind table column) (t.columnValue table rid column)).isSome) →
      ∀ parent, t.rowsForParent table parent = .ok (t.rowsDenoting table column parent) := by
  intro hclaim
  have hok : (parse nestedClassStream 0 false .strict []).isOk := by decide +kernel
  obtain ⟨⟨t, ds'⟩, hrun⟩ := exists_ok_of_isOk hok
  have hfound : ((parse nestedClassStream 0 false .strict []).toOption.map fun r =>
      (r.1.rowsForParent .nestedClass (Token.new .methodDef 2)).toOption) =
      some (some [2, 3]) := by decide +kernel
  have hdenoting : ((parse nestedClassStream 0 false .strict []).toOption.map fun r =>
      r.1.rowsDenoting .nestedClass 0 (Token.new .methodDef 2)) = some [] := by decide +kernel
  rw [hrun] at hfound hdenoting
  have hresult := ok_of_toOption (Option.some.inj hfound)
  have hnone : t.rowsDenoting .nestedClass 0 (Token.new .methodDef 2) = [] :=
    Option.some.inj hdenoting
  have hsame := hclaim nestedClassStream 0 false .strict [] ds' t hrun .nestedClass 0 rfl
    (fun _ _ => rfl) (Token.new .methodDef 2)
  rw [hresult, hnone] at hsame
  cases hsame

end Tables

end Cildec
