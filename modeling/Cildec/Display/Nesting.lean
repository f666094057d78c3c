import Cildec.Display.Names
import Cildec.Lib.Walk
import Cildec.Tables.Rounds
import Cildec.Tables.Strict
import Cildec.Tables.Typed
import Mathlib.Data.List.Perm.Subperm

/-!
# Nested type names (`src/display.rs`)

`Names::type_def` follows `NestedClass` for as many rounds as that table has rows. Different
types are found in different rows, so the rounds are enough for every chain that ends
(`typeDef_complete`), and the types it visits repeat exactly when `NestedClass` has a cycle
of two or more types to walk into (`types_visited_once_iff`).
-/

namespace Cildec

open Wire

/-! ## Lookups find what they look for -/

theorem Checked.ofResult_eq_ok_iff {α : Type} {x : Result α} {a : α} :
    Checked.ofResult x = .ok a ↔ x = .ok a := by
  cases x with
  | ok b =>
      constructor <;> intro h <;> cases h <;> rfl
  | error e =>
      constructor <;> intro h <;> cases h

namespace Tables

variable {t : Tables} {table : TableId} {column key : Nat}

theorem keyRun_holds : ∀ rounds rid {out rids : List Nat},
    t.keyRun table column key rounds rid out = .ok rids →
    (∀ r ∈ out, t.rawColumn table r column = .ok key) →
    ∀ r ∈ rids, t.rawColumn table r column = .ok key
  | 0, _, _, _, h, _ => by cases h
  | rounds + 1, rid, out, rids, h, hout => by
      unfold keyRun at h
      by_cases hle : rid ≤ t.rowCount table
      · rw [if_pos hle] at h
        obtain ⟨value, hvalue, h⟩ := ok_bind_iff.mp h
        by_cases hkey : value = key
        · rw [if_pos hkey] at h
          obtain ⟨next, _, h⟩ := ok_bind_iff.mp h
          refine keyRun_holds rounds next h fun r hr => ?_
          rcases List.mem_append.mp hr with hr | hr
          · exact hout r hr
          · rw [List.mem_singleton.mp hr, ← hkey]
            exact Checked.ofResult_eq_ok_iff.mp hvalue
        · rw [if_neg hkey] at h
          cases h
          exact hout
      · rw [if_neg hle] at h
        cases h
        exact hout

theorem keyScan_holds : ∀ scanned {out rids : List Nat},
    t.keyScan table column key scanned out = .ok rids →
    (∀ r ∈ out, t.rawColumn table r column = .ok key) →
    ∀ r ∈ rids, t.rawColumn table r column = .ok key
  | [], _, _, h, hout => by
      cases h
      exact hout
  | rid :: scanned, out, rids, h, hout => by
      unfold keyScan at h
      obtain ⟨value, hvalue, h⟩ := ok_bind_iff.mp h
      refine keyScan_holds scanned h fun r hr => ?_
      by_cases hkey : value = key
      · rw [if_pos hkey] at hr
        rcases List.mem_append.mp hr with hr | hr
        · exact hout r hr
        · rw [List.mem_singleton.mp hr, ← hkey]
          exact Checked.ofResult_eq_ok_iff.mp hvalue
      · rw [if_neg hkey] at hr
        exact hout r hr

/-- Searched or scanned, the rows that are found hold the key. -/
theorem rowsWithKey_holds (hcolumn : sortKeyColumn table = some column) {rids : List Nat}
    (h : t.rowsWithKey table key = .ok rids) :
    ∀ rid ∈ rids, t.rawColumn table rid column = .ok key := by
  have hnil : ∀ r ∈ ([] : List Nat), t.rawColumn table r column = .ok key :=
    fun r hr => absurd hr List.not_mem_nil
  simp only [rowsWithKey, hcolumn] at h
  by_cases hzero : t.rowCount table = 0
  · rw [if_pos hzero] at h
    cases h
    exact hnil
  · rw [if_neg hzero] at h
    by_cases hsorted : t.isSorted table
    · rw [if_pos hsorted] at h
      obtain ⟨_, _, h⟩ := ok_bind_iff.mp h
      obtain ⟨_, _, h⟩ := ok_bind_iff.mp h
      exact keyRun_holds _ _ h hnil
    · rw [if_neg hsorted] at h
      exact keyScan_holds _ h hnil

/-- A raw column is read from a row of the table. -/
theorem rawColumn_mem {rid value : Nat} (h : t.rawColumn table rid column = .ok value) :
    rid ∈ List.range' 1 (t.rowCount table) := by
  by_contra hno
  have hout : rid = 0 ∨ (t.layout table).rowCount < rid := by
    rw [List.mem_range'_1] at hno
    have hcount : t.rowCount table = (t.layout table).rowCount := rfl
    omega
  simp only [rawColumn, rowBytes, if_pos hout] at h
  by_cases hcolumn : (t.layout table).columnCount ≤ column
  · rw [if_pos hcolumn] at h
    cases h
  · rw [if_neg hcolumn] at h
    cases h

/-- An enclosing type is found in a row that has the nested type for its key. -/
theorem enclosingType_some {inner outer : Nat} (h : t.enclosingType inner = .ok (some outer)) :
    ∃ rid, t.rawColumn .nestedClass rid 0 = .ok inner := by
  obtain ⟨found, hfound, h⟩ := ok_bind_iff.mp h
  obtain ⟨rids, hrids, hhead⟩ := ok_bind_iff.mp hfound
  cases hhead
  cases rids with
  | nil => cases h
  | cons rid rids =>
      exact ⟨rid, rowsWithKey_holds rfl hrids rid List.mem_cons_self⟩

/-- There are no more types with an enclosing type than rows of `NestedClass`. -/
theorem enclosed_length_le {inners : List Nat} (hnodup : inners.Nodup)
    (henclosed : ∀ inner ∈ inners, ∃ outer, t.enclosingType inner = .ok (some outer)) :
    inners.length ≤ t.rowCount .nestedClass := by
  have hsub : inners ⊆ (List.range' 1 (t.rowCount .nestedClass)).filterMap fun rid =>
      (t.rawColumn .nestedClass rid 0).toOption := by
    intro inner hinner
    obtain ⟨outer, houter⟩ := henclosed inner hinner
    obtain ⟨rid, hrid⟩ := enclosingType_some houter
    exact List.mem_filterMap.mpr ⟨rid, rawColumn_mem hrid, by rw [hrid]; rfl⟩
  calc inners.length ≤ _ := (List.subperm_of_subset hnodup hsub).length_le
    _ ≤ (List.range' 1 (t.rowCount .nestedClass)).length := List.length_filterMap_le _ _
    _ = t.rowCount .nestedClass := List.length_range'

end Tables

namespace Names

variable (m : Metadata)

/-! ## What is walked -/

/-- The qualified name in a `TypeDef` row, or nothing. -/
def qualifiedName (rid : Nat) : String :=
  match typeDefName m rid with
  | .ok name => name
  | .error _ => ""

/-- The types whose names `outward` puts in front, in the order in which it does. -/
def outwardTypes : Nat → Nat → List Nat
  | 0, _ => []
  | rounds + 1, current =>
      match m.tables.enclosingType current with
      | .ok (some outer) =>
          if outer = 0 ∨ outer = current then []
          else if (typeDefName m outer).isOk then outer :: outwardTypes rounds outer
          else []
      | _ => []

/-- The types that `type_def` visits: none, if it fails before its loop. -/
def visited (rid : Nat) : List Nat :=
  if (typeDefName m rid).isOk then rid :: outwardTypes m (m.tables.rowCount .nestedClass) rid
  else []

/-- A type and the type its name goes on with: the other type that encloses it, by the row a
lookup finds. -/
structure Encloses (inner outer : Nat) : Prop where
  row : m.tables.enclosingType inner = .ok (some outer)
  notNull : outer ≠ 0
  ne : outer ≠ inner
  inner_ok : (typeDefName m inner).isOk
  outer_ok : (typeDefName m outer).isOk

/-- No type that the walk from `rid` can come to encloses itself through other types. -/
def Acyclic (rid : Nat) : Prop :=
  ∀ ty, Relation.ReflTransGen (Encloses m) rid ty → ¬ Relation.TransGen (Encloses m) ty ty

/-- A chain of enclosing types, from the innermost to one that nothing encloses. -/
def EnclosingChain : List Nat → Prop
  | [] => False
  | [outermost] => m.tables.enclosingType outermost = .ok none
  | inner :: outer :: rest =>
      m.tables.enclosingType inner = .ok (some outer) ∧ EnclosingChain (outer :: rest)

/-! ## The walk is the loop -/

/-- The type that comes after `current`, if any. -/
def outerOf (current : Nat) : Option Nat :=
  match m.tables.enclosingType current with
  | .ok (some outer) =>
      if outer ≠ 0 ∧ outer ≠ current ∧ (typeDefName m current).isOk ∧ (typeDefName m outer).isOk
      then some outer
      else none
  | _ => none

variable {m}

theorem next_outerOf_iff {inner outer : Nat} :
    Next (outerOf m) inner outer ↔ Encloses m inner outer := by
  rw [Next, outerOf]
  constructor
  · intro h
    split at h
    · rename_i found hfound
      split at h
      · rename_i hall
        cases h
        exact ⟨hfound, hall.1, hall.2.1, hall.2.2.1, hall.2.2.2⟩
      · cases h
    · cases h
  · intro h
    rw [h.row]
    exact if_pos ⟨h.notNull, h.ne, h.inner_ok, h.outer_ok⟩

theorem next_outerOf : Next (outerOf m) = Encloses m :=
  funext fun _ => funext fun _ => propext next_outerOf_iff

/-- The loop visits what the walk does. -/
theorem outwardTypes_eq_walk (rounds : Nat) {current : Nat}
    (hcurrent : (typeDefName m current).isOk) :
    outwardTypes m rounds current = walk (outerOf m) rounds current := by
  induction rounds generalizing current with
  | zero => rfl
  | succ rounds ih =>
      rw [outwardTypes, walk, outerOf]
      split
      · rename_i outer houter
        by_cases hstop : outer = 0 ∨ outer = current
        · rw [if_pos hstop, if_neg fun h => hstop.elim h.1 h.2.1]
        · rw [not_or] at hstop
          rw [if_neg (not_or.mpr hstop)]
          by_cases hok : (typeDefName m outer).isOk
          · rw [if_pos hok, if_pos ⟨hstop.1, hstop.2, hcurrent, hok⟩, ih hok]
          · rw [if_neg hok, if_neg fun h => hok h.2.2.2]
      · rfl

/-- Names in front of a name, the innermost first. -/
def inFront (m : Metadata) : List Nat → String → String
  | [], name => name
  | outer :: outers, name => inFront m outers (qualifiedName m outer ++ "/" ++ name)

theorem inFront_eq (outers : List Nat) (name : String) :
    inFront m outers name =
      "/".intercalate (outers.reverse.map (qualifiedName m) ++ [name]) := by
  induction outers generalizing name with
  | nil => rfl
  | cons outer outers ih =>
      rw [inFront, ih, List.reverse_cons, List.map_append, List.append_assoc]
      cases hfront : outers.reverse.map (qualifiedName m) with
      | nil => simp
      | cons first front =>
          rw [String.intercalate_append_of_ne_nil (List.cons_ne_nil _ _) (List.cons_ne_nil _ _),
            String.intercalate_append_of_ne_nil (List.cons_ne_nil _ _)
              (List.append_ne_nil_of_right_ne_nil _ (List.cons_ne_nil _ _))]
          simp

/-- A name that is rendered has the names of the types that are visited in front, each once
for every visit. -/
theorem outward_ok {rounds current : Nat} {name rendered : String}
    (h : outward m rounds current name = .ok rendered) :
    rendered = inFront m (outwardTypes m rounds current) name := by
  induction rounds generalizing current name with
  | zero =>
      cases h
      rfl
  | succ rounds ih =>
      rw [outward] at h
      obtain ⟨found, hfound, h⟩ := ok_bind_iff.mp h
      rw [outwardTypes, hfound]
      cases found with
      | none =>
          cases h
          rfl
      | some outer =>
          by_cases hstop : outer = 0 ∨ outer = current
          · simp only [if_pos hstop] at h ⊢
            cases h
            rfl
          · simp only [if_neg hstop] at h ⊢
            obtain ⟨outerName, hname, h⟩ := ok_bind_iff.mp h
            have hqualified : qualifiedName m outer = outerName := by
              rw [qualifiedName, hname]
            rw [ih h, ← hqualified, hname]
            rfl

/-- A rendered name is the names of the visited types, the outermost first. -/
theorem typeDef_eq_visited {ty : Nat} {name : String} (h : typeDef m ty = .ok name) :
    name = "/".intercalate ((visited m ty).reverse.map (qualifiedName m)) := by
  obtain ⟨own, hown, houtward⟩ := ok_bind_iff.mp h
  have hqualified : qualifiedName m ty = own := by
    rw [qualifiedName, hown]
  have hok : (typeDefName m ty).isOk = true := by
    rw [hown]
    rfl
  rw [outward_ok houtward, inFront_eq, visited, if_pos hok, List.reverse_cons, List.map_append,
    List.map_singleton, hqualified]

/-! ## A chain that ends is rendered whole -/

theorem typeDefName_of_row {ty : Nat} {row : Row .typeDef}
    (h : m.tables.rowIndirect .typeDef ty = .ok row) :
    typeDefName m ty = .ok (qualifiedName m ty) := by
  have hname : ∃ name, typeDefName m ty = .ok name := by
    simp only [typeDefName, Names.row, h, Checked.ofResult, bind, Except.bind]
    exact ⟨_, rfl⟩
  obtain ⟨name, hname⟩ := hname
  rw [qualifiedName, hname]

theorem exists_row_of_name {ty : Nat} {name : String} (h : typeDefName m ty = .ok name) :
    ∃ row, m.tables.rowIndirect .typeDef ty = .ok row := by
  obtain ⟨row, hrow, _⟩ := ok_bind_iff.mp h
  exact ⟨row, Checked.ofResult_eq_ok_iff.mp hrow⟩

/-- There is no row 0. -/
theorem ne_zero_of_row {ty : Nat} {row : Row .typeDef}
    (h : m.tables.rowIndirect .typeDef ty = .ok row) : ty ≠ 0 := by
  rintro rfl
  have hnone : ¬ m.tables.HasRow .typeDef 0 := fun hrow => absurd hrow.1 (by decide)
  have hrow : m.tables.row .typeDef 0 = .ok row := h
  rw [Tables.LaidOut.row_out_of_range hnone] at hrow
  cases hrow

/-- The loop goes along the chain, if its rounds are enough. -/
theorem outward_chain {outers : List Nat} {rounds current : Nat} (name : String)
    (hchain : EnclosingChain m (current :: outers)) (hnodup : (current :: outers).Nodup)
    (hrows : ∀ ty ∈ outers, ∃ row, m.tables.rowIndirect .typeDef ty = .ok row)
    (hrounds : outers.length ≤ rounds) :
    outward m rounds current name = .ok (inFront m outers name) := by
  induction outers generalizing rounds current name with
  | nil =>
      cases rounds with
      | zero => rfl
      | succ rounds =>
          have hnone : m.tables.enclosingType current = .ok none := hchain
          simp only [outward, hnone, bind, Except.bind]
          rfl
  | cons outer outers ih =>
      obtain ⟨rounds, rfl⟩ := Nat.exists_eq_succ_of_ne_zero
        (Nat.ne_of_gt (Nat.lt_of_lt_of_le (Nat.zero_lt_succ _) hrounds))
      obtain ⟨henclosing, hrest⟩ := hchain
      obtain ⟨row, hrow⟩ := hrows outer List.mem_cons_self
      -- neither guard of the loop stops here: no type of the chain comes twice, and none is
      -- null
      have hne : outer ≠ current := by
        rintro rfl
        exact (List.nodup_cons.mp hnodup).1 List.mem_cons_self
      have hgo : ¬(outer = 0 ∨ outer = current) := not_or.mpr ⟨ne_zero_of_row hrow, hne⟩
      simp only [outward, henclosing, bind, Except.bind, if_neg hgo, typeDefName_of_row hrow]
      exact ih _ hrest (List.nodup_cons.mp hnodup).2
        (fun ty hty => hrows ty (List.mem_cons_of_mem _ hty)) (Nat.le_of_succ_le_succ hrounds)

/-- All types of a chain but the last are enclosed. -/
theorem EnclosingChain.enclosed {ty : Nat} {outers : List Nat}
    (hchain : EnclosingChain m (ty :: outers)) :
    ∀ inner ∈ (ty :: outers).dropLast, ∃ outer, m.tables.enclosingType inner = .ok (some outer) := by
  induction outers generalizing ty with
  | nil => exact fun inner hinner => absurd hinner List.not_mem_nil
  | cons outer outers ih =>
      rw [List.dropLast_cons_cons]
      exact List.forall_mem_cons.mpr ⟨⟨outer, hchain.1⟩, ih hchain.2⟩

/-- The name of a type is complete: where its enclosing types come to an end, none of them
twice, and their rows decode, they are all in front of it, however `NestedClass` is ordered. -/
theorem typeDef_complete {ty : Nat} {outers : List Nat}
    (hchain : EnclosingChain m (ty :: outers)) (hnodup : (ty :: outers).Nodup)
    (hrows : ∀ t ∈ ty :: outers, ∃ row, m.tables.rowIndirect .typeDef t = .ok row) :
    typeDef m ty = .ok ("/".intercalate ((ty :: outers).reverse.map (qualifiedName m))) := by
  obtain ⟨row, hrow⟩ := hrows ty List.mem_cons_self
  -- every type but the last has a row of its own, so the rounds are enough
  have hlength := Tables.enclosed_length_le (t := m.tables)
    (hnodup.sublist (List.dropLast_sublist _)) hchain.enclosed
  rw [List.length_dropLast, List.length_cons, Nat.add_sub_cancel] at hlength
  have houtward := outward_chain (qualifiedName m ty) hchain hnodup
    (fun t ht => hrows t (List.mem_cons_of_mem _ ht)) hlength
  simp only [typeDef, typeDefName_of_row hrow, bind, Except.bind, houtward]
  rw [inFront_eq, List.reverse_cons, List.map_append]
  rfl

/-- A region whose type `A` is nested in its type `B`. -/
def nestedRegion : List UInt8 :=
  [0x42, 0x53, 0x4A, 0x42, 1, 0, 1, 0, 0, 0, 0, 0, 4, 0, 0, 0, 0x76, 0x34, 0, 0, 0, 0, 2, 0,
    56, 0, 0, 0, 64, 0, 0, 0, 0x23, 0x7E, 0, 0,
    120, 0, 0, 0, 5, 0, 0, 0, 0x23, 0x53, 0x74, 0x72, 0x69, 0x6E, 0x67, 0x73, 0, 0, 0, 0,
    0, 0, 0, 0, 2, 0, 0, 1, 4, 0, 0, 0, 0, 2, 0, 0, 0, 0, 0, 0, 0, 0, 0, 0, 2, 0, 0, 0, 1, 0, 0, 0,
    0, 0, 0, 0, 1, 0, 0, 0, 0, 0, 1, 0, 1, 0, 0, 0, 0, 0, 3, 0, 0, 0, 0, 0, 1, 0, 1, 0,
    1, 0, 2, 0, 0, 0x41, 0, 0x42, 0]

theorem nestedRegion_rows : (Metadata.parse nestedRegion).toOption.map (fun m =>
    ((m.tables.enclosingType 1).toOption, (m.tables.enclosingType 2).toOption,
      (typeDefName m 1).toOption, (typeDefName m 2).toOption)) =
      some (some (some 2), some none, some "A", some "B") := by
  decide +kernel

theorem typeDef_complete_nested :
    ∃ m, Metadata.parse nestedRegion = .ok m ∧ typeDef m 1 = .ok "B/A" := by
  obtain ⟨m, hparse, hrows⟩ := Option.map_eq_some_iff.mp nestedRegion_rows
  simp only [Prod.mk.injEq] at hrows
  obtain ⟨h1, h2, hA, hB⟩ := hrows
  refine ⟨m, ok_of_toOption hparse, ?_⟩
  have hchain : EnclosingChain m [1, 2] := ⟨ok_of_toOption h1, ok_of_toOption h2⟩
  have hname := typeDef_complete hchain (by decide) (by
    intro t ht
    rcases List.mem_cons.mp ht with rfl | ht
    · exact exists_row_of_name (ok_of_toOption hA)
    · rw [List.mem_singleton.mp ht]
      exact exists_row_of_name (ok_of_toOption hB))
  rw [hname]
  simp only [qualifiedName, ok_of_toOption hA, ok_of_toOption hB, List.reverse_cons,
    List.reverse_nil, List.nil_append, List.cons_append, List.map_cons, List.map_nil]
  decide

/-! ## What a cycle does -/

/-- The walk of `type_def` visits no type twice, and so puts no name in front twice, exactly
when it cannot come to a type that encloses itself through other types. -/
theorem types_visited_once_iff (m : Metadata) (ty : Nat) :
    (visited m ty).Nodup ↔ Acyclic m ty := by
  rw [visited, Acyclic, ← next_outerOf]
  by_cases hok : (typeDefName m ty).isOk
  · rw [if_pos hok, outwardTypes_eq_walk _ hok]
    refine walk_nodup_iff _ ty fun inners hnodup hsome => ?_
    refine Tables.enclosed_length_le hnodup fun inner hinner => ?_
    obtain ⟨outer, houter⟩ := Option.isSome_iff_exists.mp (hsome inner hinner)
    exact ⟨outer, (next_outerOf_iff.mp houter).row⟩
  · rw [if_neg hok]
    refine iff_of_true List.nodup_nil fun other hreach hcycle => ?_
    -- nothing leads out of a type whose row does not decode
    have hstuck : ∀ outer, ¬ Next (outerOf m) ty outer :=
      fun outer h => hok (next_outerOf_iff.mp h).inner_ok
    rcases Relation.ReflTransGen.cases_head hreach with rfl | ⟨outer, hstep, _⟩
    · obtain ⟨outer, hstep, _⟩ := Relation.TransGen.head'_iff.mp hcycle
      exact hstuck outer hstep
    · exact hstuck outer hstep

/-- A region whose types `A` and `B` are nested in each other. -/
def mutualRegion : List UInt8 :=
  [0x42, 0x53, 0x4A, 0x42, 1, 0, 1, 0, 0, 0, 0, 0, 4, 0, 0, 0, 0x76, 0x34, 0, 0, 0, 0, 2, 0,
    56, 0, 0, 0, 68, 0, 0, 0, 0x23, 0x7E, 0, 0,
    124, 0, 0, 0, 5, 0, 0, 0, 0x23, 0x53, 0x74, 0x72, 0x69, 0x6E, 0x67, 0x73, 0, 0, 0, 0,
    0, 0, 0, 0, 2, 0, 0, 1, 4, 0, 0, 0, 0, 2, 0, 0, 0, 0, 0, 0, 0, 0, 0, 0, 2, 0, 0, 0, 2, 0, 0, 0,
    0, 0, 0, 0, 1, 0, 0, 0, 0, 0, 1, 0, 1, 0, 0, 0, 0, 0, 3, 0, 0, 0, 0, 0, 1, 0, 1, 0,
    1, 0, 2, 0, 2, 0, 1, 0, 0, 0x41, 0, 0x42, 0]

/-- The walk comes back to `A`, whose name is in front of itself. -/
theorem types_visited_twice :
    (∃ m, Metadata.parse mutualRegion = .ok m ∧ typeDef m 1 = .ok "A/B/A") ∧
      ¬ ∀ m, Metadata.parse mutualRegion = .ok m → (visited m 1).Nodup := by
  have hruns : (Metadata.parse mutualRegion).toOption.map (fun m =>
      ((typeDef m 1).toOption, visited m 1)) = some (some "A/B/A", [1, 2, 1]) := by
    decide +kernel
  obtain ⟨m, hparse, hrun⟩ := Option.map_eq_some_iff.mp hruns
  obtain ⟨hname, hvisited⟩ := Prod.mk.inj hrun
  refine ⟨⟨m, ok_of_toOption hparse, ok_of_toOption hname⟩, fun h => ?_⟩
  have hnodup := h m (ok_of_toOption hparse)
  rw [hvisited] at hnodup
  exact absurd hnodup (by decide)

end Names

end Cildec
