import Cildec.Token

/-!
# Coded index kinds (`src/tables/coded.rs`)

A coded index packs a table tag into the low bits of a column and the RID into
the rest.
-/

namespace Cildec

/-- The kinds of coded index used by metadata columns. -/
inductive CodedIndex where
  | typeDefOrRef | hasConstant | hasCustomAttribute | hasFieldMarshal | hasDeclSecurity
  | memberRefParent | hasSemantics | methodDefOrRef | memberForwarded | implementation
  | customAttributeType | resolutionScope | typeOrMethodDef | hasCustomDebugInformation
  deriving DecidableEq, Repr

namespace CodedIndex

/-- The number of tag bits in the low end of the column. -/
def tagBits : CodedIndex → Nat
  | .typeDefOrRef => 2
  | .hasConstant => 2
  | .hasCustomAttribute => 5
  | .hasFieldMarshal => 1
  | .hasDeclSecurity => 2
  | .memberRefParent => 3
  | .hasSemantics => 1
  | .methodDefOrRef => 1
  | .memberForwarded => 1
  | .implementation => 2
  | .customAttributeType => 3
  | .resolutionScope => 2
  | .typeOrMethodDef => 1
  | .hasCustomDebugInformation => 5

/-- The table selected by each tag value, in tag order; `none` marks a tag that
ECMA-335 leaves undefined. -/
def tables : CodedIndex → List (Option TableId)
  | .typeDefOrRef => [some .typeDef, some .typeRef, some .typeSpec]
  | .hasConstant => [some .field, some .param, some .property]
  | .hasCustomAttribute =>
      [some .methodDef, some .field, some .typeRef, some .typeDef, some .param,
      some .interfaceImpl, some .memberRef, some .module, some .declSecurity,
      some .property, some .event, some .standAloneSig, some .moduleRef, some .typeSpec,
      some .assembly, some .assemblyRef, some .file, some .exportedType,
      some .manifestResource, some .genericParam, some .genericParamConstraint,
      some .methodSpec]
  | .hasFieldMarshal => [some .field, some .param]
  | .hasDeclSecurity => [some .typeDef, some .methodDef, some .assembly]
  | .memberRefParent =>
      [some .typeDef, some .typeRef, some .moduleRef, some .methodDef, some .typeSpec]
  | .hasSemantics => [some .event, some .property]
  | .methodDefOrRef => [some .methodDef, some .memberRef]
  | .memberForwarded => [some .field, some .methodDef]
  | .implementation => [some .file, some .assemblyRef, some .exportedType]
  | .customAttributeType => [none, none, some .methodDef, some .memberRef, none]
  | .resolutionScope => [some .module, some .moduleRef, some .assemblyRef, some .typeRef]
  | .typeOrMethodDef => [some .typeDef, some .methodDef]
  | .hasCustomDebugInformation =>
      [some .methodDef, some .field, some .typeRef, some .typeDef, some .param,
      some .interfaceImpl, some .memberRef, some .module, some .declSecurity,
      some .property, some .event, some .standAloneSig, some .moduleRef, some .typeSpec,
      some .assembly, some .assemblyRef, some .file, some .exportedType,
      some .manifestResource, some .genericParam, some .genericParamConstraint,
      some .methodSpec, some .document, some .localScope, some .localVariable,
      some .localConstant, some .importScope]

/-- The mask that isolates the tag bits. -/
def tagMask (kind : CodedIndex) : Nat := (1 <<< kind.tagBits) - 1

/-- The largest row count below which the column has its 2-byte form. -/
def smallRowLimit (kind : CodedIndex) : Nat := 1 <<< (16 - kind.tagBits)

/-- The column width given the largest tagged table row count. -/
def columnWidth (kind : CodedIndex) (maxRows : Nat) : Nat :=
  if maxRows < kind.smallRowLimit then 2 else 4

/-- Decodes a raw column value into a token. -/
def decode (kind : CodedIndex) (value offset : Nat) : Result Token :=
  let tag := value &&& kind.tagMask
  let rid := value >>> kind.tagBits
  match kind.tables[tag]?.join with
  | some table => .ok (Token.new table rid)
  | none => .error (Error.new .malformed offset "coded index")

/-- Encodes a token into a raw column value, or `none` when the kind cannot
represent the token table. -/
def encode (kind : CodedIndex) (token : Token) : Option Nat := do
  let table ← token.table
  let tag ← kind.tables.findIdx? (· == some table)
  let rid := token.rid
  if rid ≤ (2 ^ 32 - 1) >>> kind.tagBits then
    some ((rid <<< kind.tagBits) ||| tag)
  else
    none

/-! ## Tag and RID of a raw value -/

theorem tables_length_le (kind : CodedIndex) : kind.tables.length ≤ 2 ^ kind.tagBits := by
  cases kind <;> decide

theorem tagBits_le (kind : CodedIndex) : kind.tagBits ≤ 5 := by
  cases kind <;> decide

/-- The position `encode` finds is a tag that selects the token's table. -/
theorem findIdx_tables {kind : CodedIndex} {table : TableId} {tag : Nat}
    (h : kind.tables.findIdx? (· == some table) = some tag) :
    kind.tables[tag]? = some (some table) ∧ tag < 2 ^ kind.tagBits := by
  obtain ⟨hlt, hmatch, _⟩ := List.findIdx?_eq_some_iff_getElem.mp h
  have hlen := kind.tables_length_le
  refine ⟨?_, by omega⟩
  rw [List.getElem?_eq_getElem hlt]
  simpa using hmatch

theorem encode_eq_some_iff {kind : CodedIndex} {token : Token} {v : Nat} :
    kind.encode token = some v ↔
      ∃ table tag, token.table = some table ∧
        kind.tables.findIdx? (· == some table) = some tag ∧
        token.rid ≤ (2 ^ 32 - 1) >>> kind.tagBits ∧
        v = token.rid * 2 ^ kind.tagBits + tag := by
  have hbody : ∀ table tag, kind.tables.findIdx? (· == some table) = some tag →
      (token.rid <<< kind.tagBits) ||| tag = token.rid * 2 ^ kind.tagBits + tag := by
    intro table tag htag
    rw [← Nat.shiftLeft_add_eq_or_of_lt (findIdx_tables htag).2, Nat.shiftLeft_eq]
  constructor
  · intro h
    simp only [encode, Option.bind_eq_bind, Option.bind_eq_some_iff,
      Option.ite_none_right_eq_some] at h
    obtain ⟨table, htable, tag, htag, hle, hv⟩ := h
    refine ⟨table, tag, htable, htag, hle, ?_⟩
    rw [← hbody table tag htag]
    exact (Option.some.inj hv).symm
  · rintro ⟨table, tag, htable, htag, hle, rfl⟩
    simp only [encode, Option.bind_eq_bind, htable, htag, Option.bind_some, if_pos hle,
      hbody table tag htag]

/-- Decoding undoes encoding. -/
theorem decode_encode {kind : CodedIndex} {token : Token} {v : Nat} (offset : Nat)
    (h : kind.encode token = some v) : kind.decode v offset = .ok token := by
  obtain ⟨table, tag, htable, htag, _, rfl⟩ := encode_eq_some_iff.mp h
  obtain ⟨hget, hlt⟩ := findIdx_tables htag
  have hmask : (token.rid * 2 ^ kind.tagBits + tag) &&& kind.tagMask = tag := by
    rw [tagMask, Nat.one_shiftLeft, Nat.and_two_pow_sub_one_eq_mod, Nat.mul_comm,
      Nat.mul_add_mod, Nat.mod_eq_of_lt hlt]
  have hshift : (token.rid * 2 ^ kind.tagBits + tag) >>> kind.tagBits = token.rid := by
    rw [Nat.shiftRight_eq_div_pow, Nat.mul_comm,
      Nat.mul_add_div (Nat.two_pow_pos _), Nat.div_eq_of_lt hlt, Nat.add_zero]
  simp only [decode, hmask, hshift, hget, Option.join_some]
  rw [Token.new_rid htable]

/-- No table has two tags. -/
theorem tables_distinct (kind : CodedIndex) : ∀ i < 32, ∀ j < i,
    kind.tables[j]? = kind.tables[i]? → kind.tables[i]?.join = none := by
  cases kind <;> decide

/-- The tag of a table is the one `encode` finds. -/
theorem findIdx_of_tag {kind : CodedIndex} {tag : Nat} {table : TableId}
    (h : kind.tables[tag]?.join = some table) :
    kind.tables.findIdx? (· == some table) = some tag := by
  have hget : kind.tables[tag]? = some (some table) := Option.join_eq_some_iff.mp h
  obtain ⟨hlt, helem⟩ := List.getElem?_eq_some_iff.mp hget
  have hsmall : tag < 32 := by
    have hlen := kind.tables_length_le
    have hpow : 2 ^ kind.tagBits ≤ 2 ^ 5 := Nat.pow_le_pow_right (by decide) kind.tagBits_le
    omega
  refine List.findIdx?_eq_some_iff_getElem.mpr ⟨hlt, by simp [helem], ?_⟩
  intro j hj
  have hne : kind.tables[j]? ≠ kind.tables[tag]? := by
    intro heq
    have hnone := kind.tables_distinct tag hsmall j hj heq
    rw [h] at hnone
    cases hnone
  intro hmatch
  refine hne ?_
  rw [List.getElem?_eq_getElem (by omega), hget]
  exact congrArg some (eq_of_beq hmatch)

/-- Inversion of `decode`: the tag selects the table, the rest is the RID. -/
theorem decode_eq_ok_iff {kind : CodedIndex} {v offset : Nat} {token : Token} :
    kind.decode v offset = .ok token ↔
      ∃ table, kind.tables[v % 2 ^ kind.tagBits]?.join = some table ∧
        token = Token.new table (v / 2 ^ kind.tagBits) := by
  have hmask : v &&& kind.tagMask = v % 2 ^ kind.tagBits := by
    rw [tagMask, Nat.one_shiftLeft, Nat.and_two_pow_sub_one_eq_mod]
  simp only [decode, hmask, Nat.shiftRight_eq_div_pow]
  cases kind.tables[v % 2 ^ kind.tagBits]?.join with
  | none =>
      constructor
      · intro h
        cases h
      · rintro ⟨table, htable, _⟩
        cases htable
  | some table =>
      constructor
      · intro h
        cases h
        exact ⟨table, rfl, rfl⟩
      · rintro ⟨table', htable, rfl⟩
        cases htable
        rfl

/-- A decoded token encodes back exactly when its RID was not truncated. -/
theorem encode_decode_iff {kind : CodedIndex} {v offset : Nat} {token : Token}
    (h : kind.decode v offset = .ok token) :
    kind.encode token = some v ↔ v / 2 ^ kind.tagBits < 2 ^ 24 := by
  obtain ⟨table, htag, rfl⟩ := decode_eq_ok_iff.mp h
  have hfind := findIdx_of_tag htag
  have hsplit := Nat.div_add_mod v (2 ^ kind.tagBits)
  constructor
  · intro hencode
    obtain ⟨_, tag, _, htag', _, hv⟩ := encode_eq_some_iff.mp hencode
    have hlt := (findIdx_tables htag').2
    have hrid := (Token.new table (v / 2 ^ kind.tagBits)).rid_lt
    -- encoding takes the RID of the token, which is below 2 ^ 24
    have hdiv : v / 2 ^ kind.tagBits = (Token.new table (v / 2 ^ kind.tagBits)).rid := by
      conv_lhs => rw [hv]
      rw [Nat.mul_comm, Nat.mul_add_div (Nat.two_pow_pos _), Nat.div_eq_of_lt hlt, Nat.add_zero]
    omega
  · intro hlt
    refine encode_eq_some_iff.mpr ⟨table, _, Token.table_new _ _, hfind, ?_, ?_⟩
    · have hle : 2 ^ 24 ≤ (2 ^ 32 - 1) >>> kind.tagBits := by cases kind <;> decide
      have hrid := (Token.new table (v / 2 ^ kind.tagBits)).rid_lt
      omega
    · rw [Token.rid_new table hlt, Nat.mul_comm]
      exact hsplit.symm

/-- A token of a tagged table has an encoding. -/
theorem exists_encode {kind : CodedIndex} {tag : Nat} {table : TableId}
    (h : kind.tables[tag]?.join = some table) (rid : Nat) :
    ∃ v, kind.encode (Token.new table rid) = some v := by
  have hle : 2 ^ 24 ≤ (2 ^ 32 - 1) >>> kind.tagBits := by cases kind <;> decide
  have hrid := (Token.new table rid).rid_lt
  exact ⟨_, encode_eq_some_iff.mpr
    ⟨table, tag, Token.table_new table rid, findIdx_of_tag h, by omega, rfl⟩⟩

end CodedIndex

end Cildec
