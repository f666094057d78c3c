import Cildec.Tables.Lookup
import Cildec.Tables.RoundTrip
import Cildec.Tables.Typed
import Mathlib.Data.List.Nodup

/-!
# Nested types and their enclosing type

`NestedClass` is one relation seen from two sides: `enclosing_type` looks a row up by its
key, `nested_types` scans the other column. Both are described by `Encloses`, the pairs of
the rows; the views are inverse to each other once no type is nested twice, unless the
binary search cannot form its end (`enclosing_nested_inverse_iff`).
-/

namespace Cildec

open Wire

namespace Tables

/-- A row of `NestedClass` holds the pair. -/
def Encloses (t : Tables) (inner outer : Nat) : Prop :=
  ∃ rid, t.HasRow .nestedClass rid ∧ t.columnValue .nestedClass rid 0 = inner ∧
    t.columnValue .nestedClass rid 1 = outer

/-- No type is nested twice. -/
def NestedOnce (t : Tables) : Prop := (t.keys .nestedClass 0).Nodup

/-- The two lookups describe one tree. -/
structure InverseViews (t : Tables) : Prop where
  nested_of_enclosing : ∀ inner outer, t.enclosingType inner = .ok (some outer) →
    ∃ inners, t.nestedTypes outer = .ok inners ∧ inner ∈ inners
  enclosing_of_nested : t.NestedOnce → ∀ inner outer inners,
    t.nestedTypes outer = .ok inners → inner ∈ inners →
      t.enclosingType inner = .ok (some outer)
  disjoint : t.NestedOnce → ∀ outer outer' inners inners', outer ≠ outer' →
    t.nestedTypes outer = .ok inners → t.nestedTypes outer' = .ok inners' →
      inners.Disjoint inners'

namespace LaidOut

variable {t : Tables} {h : StreamHeader} {start : Nat}

theorem mem_range'_of_hasRow {table : TableId} {rid : Nat} (hrow : t.HasRow table rid) :
    rid ∈ List.range' 1 (t.rowCount table) := by
  obtain ⟨hone, hle⟩ := hrow
  rw [List.mem_range'_1]
  omega

theorem nested_column_lt : 0 < (columnsOf .nestedClass).length := by decide

theorem enclosing_column_lt : 1 < (columnsOf .nestedClass).length := by decide

/-! ## The scan -/

theorem nestedScan_eq (hl : t.LaidOut h start) (typeDef : Nat) {rids : List Nat}
    (hrids : ∀ rid ∈ rids, t.HasRow .nestedClass rid) (out : List Nat) :
    t.nestedScan typeDef rids out =
      .ok (out ++ (rids.filter fun rid => t.columnValue .nestedClass rid 1 = typeDef).map
        fun rid => t.columnValue .nestedClass rid 0) := by
  induction rids generalizing out with
  | nil => simp [nestedScan, pure, Except.pure]
  | cons rid rids ih =>
      have hrow := hrids rid List.mem_cons_self
      have houter := hl.rawColumn_eq hrow enclosing_column_lt
      have hinner := hl.rawColumn_eq hrow nested_column_lt
      have htail := ih fun x hx => hrids x (List.mem_cons_of_mem _ hx)
      simp only [nestedScan, houter, hinner, bind, Except.bind, htail]
      by_cases hkey : t.columnValue .nestedClass rid 1 = typeDef
      · simp [hkey]
      · simp [hkey]

/-- The types nested in a type are those that a row pairs with it. -/
theorem nestedTypes_spec (hl : t.LaidOut h start) (outer : Nat) :
    ∃ inners, t.nestedTypes outer = .ok inners ∧
      ∀ inner, inner ∈ inners ↔ t.Encloses inner outer := by
  refine ⟨_, hl.nestedScan_eq outer (fun _ hrid => hasRow_of_mem_range' hrid) [], ?_⟩
  intro inner
  rw [List.nil_append, List.mem_map]
  constructor
  · rintro ⟨rid, hmem, hinner⟩
    obtain ⟨hrid, houter⟩ := List.mem_filter.mp hmem
    exact ⟨rid, hasRow_of_mem_range' hrid, hinner, of_decide_eq_true houter⟩
  · rintro ⟨rid, hrow, hinner, houter⟩
    exact ⟨rid, List.mem_filter.mpr ⟨mem_range'_of_hasRow hrow, decide_eq_true houter⟩, hinner⟩

theorem mem_nestedTypes_iff (hl : t.LaidOut h start) {inner outer : Nat} {inners : List Nat}
    (hok : t.nestedTypes outer = .ok inners) : inner ∈ inners ↔ t.Encloses inner outer := by
  obtain ⟨inners', hok', hmem⟩ := hl.nestedTypes_spec outer
  rw [hok] at hok'
  cases hok'
  exact hmem inner

/-! ## The keyed lookup -/

/-- With the rows of the key at hand, the first of them decides. -/
theorem enclosingType_of_rows (hl : t.LaidOut h start) {inner : Nat}
    (hrows : t.rowsWithKey .nestedClass inner = .ok (t.rowsHolding .nestedClass 0 inner)) :
    t.enclosingType inner = .ok ((t.rowsHolding .nestedClass 0 inner).head?.map
      fun rid => t.columnValue .nestedClass rid 1) := by
  simp only [enclosingType, firstRowWithKey, hrows, bind, Except.bind, pure, Except.pure]
  cases hfirst : (t.rowsHolding .nestedClass 0 inner).head? with
  | none => rfl
  | some rid =>
      have hmem := List.mem_of_mem_head? hfirst
      have hrow := hasRow_of_mem_range' (List.mem_filter.mp hmem).1
      simp only [hl.rawColumn_eq hrow enclosing_column_lt, Checked.ofResult, Option.map_some]

theorem mem_rowsHolding (hl : t.LaidOut h start) {inner rid : Nat} :
    rid ∈ t.rowsHolding .nestedClass 0 inner ↔
      t.HasRow .nestedClass rid ∧ t.columnValue .nestedClass rid 0 = inner := by
  rw [hl.rowsHolding_eq nested_column_lt, List.mem_filter, decide_eq_true_iff]
  exact and_congr_left fun _ => ⟨hasRow_of_mem_range', mem_range'_of_hasRow⟩

/-- Two rows of one type are the same row, when no type is nested twice. -/
theorem row_unique (honce : t.NestedOnce) {rid rid' : Nat} (hrow : t.HasRow .nestedClass rid)
    (hrow' : t.HasRow .nestedClass rid')
    (heq : t.columnValue .nestedClass rid 0 = t.columnValue .nestedClass rid' 0) :
    rid = rid' := by
  exact List.inj_on_of_nodup_map honce (mem_range'_of_hasRow hrow) (mem_range'_of_hasRow hrow') heq

theorem outer_unique (honce : t.NestedOnce) {inner outer outer' : Nat}
    (hpair : t.Encloses inner outer) (hpair' : t.Encloses inner outer') : outer = outer' := by
  obtain ⟨rid, hrow, hinner, rfl⟩ := hpair
  obtain ⟨rid', hrow', hinner', rfl⟩ := hpair'
  rw [row_unique honce hrow hrow' (hinner.trans hinner'.symm)]

end LaidOut

/-! ## Both views -/

section Parsed

variable {t : Tables} {h : StreamHeader} {start : Nat}

theorem enclosingType_overflow (hsorted : t.isSorted .nestedClass)
    (hlong : 2 ^ 32 ≤ t.rowCount .nestedClass + 1) (inner : Nat) :
    t.enclosingType inner = .error .overflow := by
  have hover := rowsWithKey_overflow rfl hsorted hlong inner
  simp only [enclosingType, firstRowWithKey, hover, bind, Except.bind]

/-- What encloses a type is paired with it by a row. -/
theorem LaidOut.encloses_of_enclosingType (hl : t.LaidOut h start)
    (hverified : ∀ table, t.isSorted table ↔ t.KeysSorted table) {inner outer : Nat}
    (hok : t.enclosingType inner = .ok (some outer)) : t.Encloses inner outer := by
  by_cases hcount : t.isSorted .nestedClass → t.rowCount .nestedClass + 1 < 2 ^ 32
  · rw [hl.enclosingType_of_rows (hl.rowsWithKey_spec hverified rfl hcount inner)] at hok
    obtain ⟨rid, hfirst, houter⟩ := Option.map_eq_some_iff.mp (Except.ok.inj hok)
    obtain ⟨hrow, hinner⟩ := hl.mem_rowsHolding.mp (List.mem_of_mem_head? hfirst)
    exact ⟨rid, hrow, hinner, houter⟩
  · -- the search of a table that is too long fails
    obtain ⟨hsorted, hlong⟩ := Classical.not_imp.mp hcount
    rw [enclosingType_overflow hsorted (Nat.not_lt.mp hlong)] at hok
    cases hok

/-- A type that a row pairs has an enclosing type, unless the search overflows. -/
theorem LaidOut.enclosingType_of_encloses (hl : t.LaidOut h start)
    (hverified : ∀ table, t.isSorted table ↔ t.KeysSorted table) (honce : t.NestedOnce)
    (hcount : t.isSorted .nestedClass → t.rowCount .nestedClass + 1 < 2 ^ 32)
    {inner outer : Nat} (hpair : t.Encloses inner outer) :
    t.enclosingType inner = .ok (some outer) := by
  have hrows := hl.rowsWithKey_spec hverified rfl hcount inner
  rw [hl.enclosingType_of_rows hrows]
  obtain ⟨rid, hrow, hinner, houter⟩ := hpair
  cases hfirst : (t.rowsHolding .nestedClass 0 inner).head? with
  | none =>
      have hnil := List.head?_eq_none_iff.mp hfirst
      have hmem := hl.mem_rowsHolding.mpr ⟨hrow, hinner⟩
      rw [hnil] at hmem
      cases hmem
  | some first =>
      obtain ⟨hrow', hinner'⟩ := hl.mem_rowsHolding.mp (List.mem_of_mem_head? hfirst)
      have hsame := LaidOut.outer_unique honce ⟨first, hrow', hinner', rfl⟩
        ⟨rid, hrow, hinner, houter⟩
      rw [Option.map_some, hsame]

/-- In a table that is too long the first row pairs two types, but its key is not found. -/
theorem LaidOut.not_inverse (hl : t.LaidOut h start) (honce : t.NestedOnce)
    (hsorted : t.isSorted .nestedClass) (hlong : 2 ^ 32 ≤ t.rowCount .nestedClass + 1) :
    ¬ t.InverseViews := by
  intro hviews
  have hrow : t.HasRow .nestedClass 1 := ⟨Nat.le_refl 1, by omega⟩
  obtain ⟨inners, hok, hmem⟩ := hl.nestedTypes_spec (t.columnValue .nestedClass 1 1)
  have hfound := hviews.enclosing_of_nested honce _ _ _ hok ((hmem _).mpr ⟨1, hrow, rfl, rfl⟩)
  rw [enclosingType_overflow hsorted hlong] at hfound
  cases hfound

/-- For every accepted stream: the scan always succeeds, and the two lookups describe one
tree unless no type is nested twice and a verified table is too long to be searched. -/
theorem enclosing_nested_inverse_iff {data : List UInt8} {base : Nat} {uncompressed : Bool}
    {s : Strictness} {ds ds' : List Diagnostic}
    (hrun : parse data base uncompressed s ds = .ok (t, ds')) :
    (∀ outer, ∃ inners, t.nestedTypes outer = .ok inners) ∧
    (t.InverseViews ↔
      (t.NestedOnce → t.isSorted .nestedClass → t.rowCount .nestedClass + 1 < 2 ^ 32)) := by
  obtain ⟨⟨_, _, hl⟩, hverified⟩ := parse_spec hrun
  have hscan : ∀ outer, ∃ inners, t.nestedTypes outer = .ok inners := by
    intro outer
    obtain ⟨inners, hok, _⟩ := hl.nestedTypes_spec outer
    exact ⟨inners, hok⟩
  refine ⟨hscan, ?_, ?_⟩
  · intro hviews honce hsorted
    by_contra hlong
    exact hl.not_inverse honce hsorted (Nat.not_lt.mp hlong) hviews
  · intro hcount
    refine ⟨?_, ?_, ?_⟩
    · intro inner outer hok
      obtain ⟨inners, hnested⟩ := hscan outer
      have hpair := hl.encloses_of_enclosingType hverified hok
      exact ⟨inners, hnested, (hl.mem_nestedTypes_iff hnested).mpr hpair⟩
    · intro honce inner outer inners hok hmem
      exact hl.enclosingType_of_encloses hverified honce (hcount honce)
        ((hl.mem_nestedTypes_iff hok).mp hmem)
    · intro honce outer outer' inners inners' hne hok hok'
      rw [List.disjoint_left]
      intro inner hmem hmem'
      exact hne (LaidOut.outer_unique honce ((hl.mem_nestedTypes_iff hok).mp hmem)
        ((hl.mem_nestedTypes_iff hok').mp hmem'))

end Parsed

/-- Three nested classes, one of them twice. -/
theorem nestedClassStream_inverse : ∃ t ds',
    parse nestedClassStream 0 false .strict [] = .ok (t, ds') ∧
    (∀ outer, ∃ inners, t.nestedTypes outer = .ok inners) ∧
    (t.InverseViews ↔
      (t.NestedOnce → t.isSorted .nestedClass → t.rowCount .nestedClass + 1 < 2 ^ 32)) := by
  have hok : (parse nestedClassStream 0 false .strict []).isOk := by decide +kernel
  obtain ⟨⟨t, ds'⟩, hrun⟩ := exists_ok_of_isOk hok
  exact ⟨t, ds', hrun, enclosing_nested_inverse_iff hrun⟩

end Tables

/-! ## A table that is too long to be searched -/

/-- A `TypeDef` row of zeros. -/
def emptyTypeDef : Row .typeDef :=
  ((0 : UInt32), ⟨0⟩, ⟨0⟩, Token.new .typeDef 0, ⟨0⟩, ⟨0⟩, ())

/-- Type `i` nested in type 1. -/
def nestedRow (i : Nat) : Row .nestedClass := (⟨UInt32.ofNat i⟩, ⟨1⟩, ())

/-- `m` types, and `n` rows that nest different types in type 1. -/
def nestedRows (m n : Nat) : (table : TableId) → List (Row table)
  | .typeDef => List.replicate m emptyTypeDef
  | .nestedClass => (List.range' 1 n).map nestedRow
  | _ => []

theorem nestedHeapSizes_bits : (0 : UInt8) &&& ~~~(0x01 ||| 0x02 ||| 0x04 ||| 0x40) = 0 := rfl

theorem nestedMask_known (slot : Nat) (h : (0x20000000004 : UInt64).toNat.testBit slot) :
    (TableId.fromU8 slot).isSome :=
  valid_known_of_low (by decide) slot h

theorem nestedRows_valid (m n : Nat) (table : TableId) (h : nestedRows m n table ≠ []) :
    (0x20000000004 : UInt64).toNat.testBit table.toU8 := by
  cases table <;> first | exact absurd rfl h | decide

theorem nestedRows_lt {m n : Nat} (hm : m < 2 ^ 32) (hn : n < 2 ^ 32) (table : TableId) :
    (nestedRows m n table).length < 2 ^ 32 := by
  cases table with
  | typeDef =>
      show (List.replicate m emptyTypeDef).length < 2 ^ 32
      rwa [List.length_replicate]
  | nestedClass =>
      show ((List.range' 1 n).map nestedRow).length < 2 ^ 32
      rwa [List.length_map, List.length_range']
  | _ =>
      show 0 < 2 ^ 32
      decide

theorem nestedRows_ptr (m n : Nat) (table ptr : TableId) (h : table.ptrSource = some ptr) :
    nestedRows m n ptr = [] ∨
      (nestedRows m n ptr).length = (nestedRows m n table).length := by
  cases table <;> cases h <;> exact .inl rfl

theorem nestedRows_fit {m : Nat} (n : Nat) (hm : 2 ^ 16 ≤ m) (table : TableId) (row : Row table)
    (h : row ∈ nestedRows m n table) :
    CellsFit (specColumnWidth 0 fun t => (nestedRows m n t).length) (columnsOf table) row := by
  cases table with
  | typeDef =>
      obtain rfl := List.eq_of_mem_replicate h
      exact ⟨trivial, lt_specColumnWidth (by decide) .u32, trivial,
        lt_specColumnWidth (by decide) .string, trivial, lt_specColumnWidth (by decide) .string,
        ⟨.typeDef, by decide, by decide⟩, lt_specColumnWidth (by decide) (.coded .typeDefOrRef),
        trivial, lt_specColumnWidth (by decide) (.rid .field), trivial,
        lt_specColumnWidth (by decide) (.rid .methodDef), trivial⟩
  | nestedClass =>
      obtain ⟨i, _, rfl⟩ := List.mem_map.mp h
      have hwide : specColumnWidth 0 (fun t => (nestedRows m n t).length) (.rid .typeDef) = 4 := by
        have hlen : (nestedRows m n .typeDef).length = m := List.length_replicate
        simp only [specColumnWidth, hlen]
        exact if_neg (Nat.not_lt.mpr hm)
      refine ⟨trivial, ?_, trivial, lt_specColumnWidth (by decide) (.rid .typeDef), trivial⟩
      rw [hwide]
      exact (UInt32.ofNat i).toNat_lt
  | _ => cases h

/-- A stream with `m` types and `n` nested ones. -/
def manyNested (m n : Nat) (hm : m < 2 ^ 32) (hwide : 2 ^ 16 ≤ m) (hn : n < 2 ^ 32) :
    TableStream where
  reserved := 0
  majorVersion := 2
  minorVersion := 0
  heapSizes := 0
  reserved2 := 1
  valid := 0x20000000004
  sorted := 0x20000000000
  extra := 0
  rows := nestedRows m n
  heapSizes_bits := nestedHeapSizes_bits
  valid_known := nestedMask_known
  valid_rows := nestedRows_valid m n
  rows_lt := nestedRows_lt hm hn
  ptr_rows := nestedRows_ptr m n
  fits := nestedRows_fit n hwide

/-- The keys of the nested rows are `1, 2, …`. -/
theorem manyNested_keys {m n : Nat} {hm : m < 2 ^ 32} {hwide : 2 ^ 16 ≤ m} {hn : n < 2 ^ 32}
    {t : Tables} {ds' : List Diagnostic}
    (hrun : Tables.parse ((manyNested m n hm hwide hn).bytes ++ []) 0 false .permissive [] =
      .ok (t, ds')) :
    t.rowCount .nestedClass = n ∧ t.keys .nestedClass 0 = List.range' 1 n := by
  obtain ⟨⟨_, _, hl⟩, _⟩ := Tables.parse_spec hrun
  have hcount : t.rowCount .nestedClass = n := by
    rw [Tables.rowCount, (manyNested m n hm hwide hn).layouts_eq hrun .nestedClass]
    show ((List.range' 1 n).map nestedRow).length = n
    rw [List.length_map, List.length_range']
  refine ⟨hcount, List.ext_getElem (by simp [Tables.keys, hcount]) fun j hj hj' => ?_⟩
  have hlt : j < n := by simpa using hj'
  have hget : ((manyNested m n hm hwide hn).rows .nestedClass)[j]? = some (nestedRow (1 + j)) := by
    show ((List.range' 1 n).map nestedRow)[j]? = some (nestedRow (1 + j))
    rw [List.getElem?_map, List.getElem?_range' hlt, Nat.one_mul, Option.map_some]
  obtain ⟨hrow, hcell, _⟩ := hl.row_holds ((manyNested m n hm hwide hn).row_eq hrun hget)
  have hraw : UInt32.ofNat (1 + j) = UInt32.ofNat (t.columnValue .nestedClass (j + 1) 0) :=
    congrArg Rid.value hcell
  have hvalue := hl.columnValue_lt hrow Tables.LaidOut.nested_column_lt
  have hnat := congrArg UInt32.toNat hraw
  rw [UInt32.toNat_ofNat_of_lt' (by show 1 + j < 2 ^ 32; omega),
    UInt32.toNat_ofNat_of_lt' hvalue] at hnat
  simp only [Tables.keys, List.getElem_map, List.getElem_range', Nat.one_mul]
  rw [Nat.add_comm j 1] at hnat
  exact hnat.symm

/-- With `u32::MAX` nested types no enclosing type is found. -/
theorem manyNested_not_inverse : ¬ ∀ (data : List UInt8) (base : Nat) (uncompressed : Bool)
    (s : Strictness) (ds ds' : List Diagnostic) (t : Tables),
    Tables.parse data base uncompressed s ds = .ok (t, ds') → t.InverseViews := by
  intro hclaim
  obtain ⟨m, hm, hwide⟩ : ∃ m, m < 2 ^ 32 ∧ 2 ^ 16 ≤ m := ⟨2 ^ 16, by omega, by omega⟩
  obtain ⟨n, hn, hlong⟩ : ∃ n, n < 2 ^ 32 ∧ 2 ^ 32 ≤ n + 1 := ⟨2 ^ 32 - 1, by omega, by omega⟩
  obtain ⟨t, ds', hrun⟩ := (manyNested m n hm hwide hn).exists_parse [] 0 false []
  obtain ⟨⟨_, _, hl⟩, hverified⟩ := Tables.parse_spec hrun
  obtain ⟨hcount, hkeys⟩ := manyNested_keys hrun
  have honce : t.NestedOnce := by
    rw [Tables.NestedOnce, hkeys]
    exact List.nodup_range'
  have hsorted : t.isSorted .nestedClass := by
    refine (hverified .nestedClass).mpr ⟨0, rfl, ?_⟩
    rw [hkeys]
    exact List.pairwise_le_range'
  exact hl.not_inverse honce hsorted (by omega) (hclaim _ 0 false .permissive [] ds' t hrun)

end Cildec
