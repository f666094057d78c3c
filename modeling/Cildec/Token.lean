import Cildec.Error
import Mathlib.Data.Nat.Bitwise

/-!
# Tokens, row identifiers and heap indices (`src/token.rs`)

A `Token` is a table id in the high byte and a RID in the low 24 bits. Building
one from a wider RID keeps the low 24 bits, as the source does; `new_rid` and
`rid_new` say when nothing is lost.
-/

namespace Cildec

/-- A metadata table identifier (ECMA-335 II.22, Portable PDB). -/
inductive TableId where
  | module | typeRef | typeDef | fieldPtr | field | methodPtr | methodDef | paramPtr | param
  | interfaceImpl | memberRef | constant | customAttribute | fieldMarshal | declSecurity
  | classLayout | fieldLayout | standAloneSig | eventMap | eventPtr | event | propertyMap
  | propertyPtr | property | methodSemantics | methodImpl | moduleRef | typeSpec | implMap
  | fieldRva | encLog | encMap | assembly | assemblyProcessor | assemblyOs | assemblyRef
  | assemblyRefProcessor | assemblyRefOs | file | exportedType | manifestResource
  | nestedClass | genericParam | methodSpec | genericParamConstraint | document
  | methodDebugInformation | localScope | localVariable | localConstant | importScope
  | stateMachineMethod | customDebugInformation
  deriving DecidableEq, Repr

namespace TableId

/-- The raw table id byte. -/
def toU8 : TableId → Nat
  | .module => 0x00
  | .typeRef => 0x01
  | .typeDef => 0x02
  | .fieldPtr => 0x03
  | .field => 0x04
  | .methodPtr => 0x05
  | .methodDef => 0x06
  | .paramPtr => 0x07
  | .param => 0x08
  | .interfaceImpl => 0x09
  | .memberRef => 0x0A
  | .constant => 0x0B
  | .customAttribute => 0x0C
  | .fieldMarshal => 0x0D
  | .declSecurity => 0x0E
  | .classLayout => 0x0F
  | .fieldLayout => 0x10
  | .standAloneSig => 0x11
  | .eventMap => 0x12
  | .eventPtr => 0x13
  | .event => 0x14
  | .propertyMap => 0x15
  | .propertyPtr => 0x16
  | .property => 0x17
  | .methodSemantics => 0x18
  | .methodImpl => 0x19
  | .moduleRef => 0x1A
  | .typeSpec => 0x1B
  | .implMap => 0x1C
  | .fieldRva => 0x1D
  | .encLog => 0x1E
  | .encMap => 0x1F
  | .assembly => 0x20
  | .assemblyProcessor => 0x21
  | .assemblyOs => 0x22
  | .assemblyRef => 0x23
  | .assemblyRefProcessor => 0x24
  | .assemblyRefOs => 0x25
  | .file => 0x26
  | .exportedType => 0x27
  | .manifestResource => 0x28
  | .nestedClass => 0x29
  | .genericParam => 0x2A
  | .methodSpec => 0x2B
  | .genericParamConstraint => 0x2C
  | .document => 0x30
  | .methodDebugInformation => 0x31
  | .localScope => 0x32
  | .localVariable => 0x33
  | .localConstant => 0x34
  | .importScope => 0x35
  | .stateMachineMethod => 0x36
  | .customDebugInformation => 0x37

/-- Every table id the crate knows, in ascending numeric order. -/
def all : List TableId :=
  [.module, .typeRef, .typeDef, .fieldPtr, .field, .methodPtr, .methodDef, .paramPtr,
   .param, .interfaceImpl, .memberRef, .constant, .customAttribute, .fieldMarshal,
   .declSecurity, .classLayout, .fieldLayout, .standAloneSig, .eventMap, .eventPtr, .event,
   .propertyMap, .propertyPtr, .property, .methodSemantics, .methodImpl, .moduleRef,
   .typeSpec, .implMap, .fieldRva, .encLog, .encMap, .assembly, .assemblyProcessor,
   .assemblyOs, .assemblyRef, .assemblyRefProcessor, .assemblyRefOs, .file, .exportedType,
   .manifestResource, .nestedClass, .genericParam, .methodSpec, .genericParamConstraint,
   .document, .methodDebugInformation, .localScope, .localVariable, .localConstant,
   .importScope, .stateMachineMethod, .customDebugInformation]

/-- The canonical name of the table. -/
def name : TableId → String
  | .module => "Module"
  | .typeRef => "TypeRef"
  | .typeDef => "TypeDef"
  | .fieldPtr => "FieldPtr"
  | .field => "Field"
  | .methodPtr => "MethodPtr"
  | .methodDef => "MethodDef"
  | .paramPtr => "ParamPtr"
  | .param => "Param"
  | .interfaceImpl => "InterfaceImpl"
  | .memberRef => "MemberRef"
  | .constant => "Constant"
  | .customAttribute => "CustomAttribute"
  | .fieldMarshal => "FieldMarshal"
  | .declSecurity => "DeclSecurity"
  | .classLayout => "ClassLayout"
  | .fieldLayout => "FieldLayout"
  | .standAloneSig => "StandAloneSig"
  | .eventMap => "EventMap"
  | .eventPtr => "EventPtr"
  | .event => "Event"
  | .propertyMap => "PropertyMap"
  | .propertyPtr => "PropertyPtr"
  | .property => "Property"
  | .methodSemantics => "MethodSemantics"
  | .methodImpl => "MethodImpl"
  | .moduleRef => "ModuleRef"
  | .typeSpec => "TypeSpec"
  | .implMap => "ImplMap"
  | .fieldRva => "FieldRva"
  | .encLog => "EncLog"
  | .encMap => "EncMap"
  | .assembly => "Assembly"
  | .assemblyProcessor => "AssemblyProcessor"
  | .assemblyOs => "AssemblyOs"
  | .assemblyRef => "AssemblyRef"
  | .assemblyRefProcessor => "AssemblyRefProcessor"
  | .assemblyRefOs => "AssemblyRefOs"
  | .file => "File"
  | .exportedType => "ExportedType"
  | .manifestResource => "ManifestResource"
  | .nestedClass => "NestedClass"
  | .genericParam => "GenericParam"
  | .methodSpec => "MethodSpec"
  | .genericParamConstraint => "GenericParamConstraint"
  | .document => "Document"
  | .methodDebugInformation => "MethodDebugInformation"
  | .localScope => "LocalScope"
  | .localVariable => "LocalVariable"
  | .localConstant => "LocalConstant"
  | .importScope => "ImportScope"
  | .stateMachineMethod => "StateMachineMethod"
  | .customDebugInformation => "CustomDebugInformation"

/-- The table of a raw id byte, or `none` if it is reserved. -/
def fromU8 (value : Nat) : Option TableId := all.find? fun t => t.toU8 == value

/-- The `*Ptr` table that can redirect into this one. -/
def ptrSource : TableId → Option TableId
  | .field => some .fieldPtr
  | .methodDef => some .methodPtr
  | .param => some .paramPtr
  | .event => some .eventPtr
  | .property => some .propertyPtr
  | _ => none

theorem mem_all (t : TableId) : t ∈ all := by cases t <;> decide

theorem toU8_lt (t : TableId) : t.toU8 < 64 := by cases t <;> decide

theorem fromU8_toU8 (t : TableId) : fromU8 t.toU8 = some t := by cases t <;> decide

theorem toU8_of_fromU8 {value : Nat} {t : TableId} (h : fromU8 value = some t) :
    t.toU8 = value := by
  have hfound := List.find?_some h
  simpa using hfound

theorem toU8_injective {s t : TableId} (h : s.toU8 = t.toU8) : s = t := by
  have hs := fromU8_toU8 s
  rw [h, fromU8_toU8] at hs
  exact (Option.some.inj hs).symm

theorem all_nodup : all.Nodup := by decide

end TableId

/-! ## Tokens -/

/-- A metadata token. -/
structure Token where
  value : UInt32
  deriving DecidableEq, Repr

namespace Token

def ridMask : Nat := 0x00FFFFFF

/-- A token from a table id and a 1-based RID; wider RIDs are truncated. -/
def new (table : TableId) (rid : Nat) : Token :=
  ⟨UInt32.ofNat ((table.toU8 <<< 24) ||| (rid &&& ridMask))⟩

/-- The table the token refers to, or `none` for a reserved table id. -/
def table (t : Token) : Option TableId := TableId.fromU8 (t.value.toNat >>> 24)

/-- The 1-based row id. -/
def rid (t : Token) : Nat := t.value.toNat &&& ridMask

theorem rid_eq_mod (t : Token) : t.rid = t.value.toNat % 2 ^ 24 :=
  Nat.and_two_pow_sub_one_eq_mod t.value.toNat 24

theorem rid_lt (t : Token) : t.rid < 2 ^ 24 := by
  rw [rid_eq_mod]
  exact Nat.mod_lt _ (by decide)

/-- The raw value of a built token. -/
theorem value_new (table : TableId) (rid : Nat) :
    (new table rid).value.toNat = table.toU8 * 2 ^ 24 + rid % 2 ^ 24 := by
  have htable := table.toU8_lt
  have hmod : rid % 2 ^ 24 < 2 ^ 24 := Nat.mod_lt _ (by decide)
  have hmask : rid &&& ridMask = rid % 2 ^ 24 := Nat.and_two_pow_sub_one_eq_mod rid 24
  have hor : (table.toU8 <<< 24) ||| (rid % 2 ^ 24) = table.toU8 * 2 ^ 24 + rid % 2 ^ 24 := by
    rw [← Nat.shiftLeft_add_eq_or_of_lt hmod, Nat.shiftLeft_eq]
  rw [new, hmask, hor]
  exact UInt32.toNat_ofNat_of_lt' (by
    show _ < 2 ^ 32
    omega)

theorem table_new (table : TableId) (rid : Nat) : (new table rid).table = some table := by
  have hmod : rid % 2 ^ 24 < 2 ^ 24 := Nat.mod_lt _ (by decide)
  have hshift : (new table rid).value.toNat >>> 24 = table.toU8 := by
    rw [Nat.shiftRight_eq_div_pow, value_new]
    omega
  rw [Token.table, hshift, TableId.fromU8_toU8]

theorem rid_new_mod (table : TableId) (rid : Nat) : (new table rid).rid = rid % 2 ^ 24 := by
  rw [rid_eq_mod, value_new]
  omega

theorem rid_new (table : TableId) {rid : Nat} (h : rid < 2 ^ 24) :
    (new table rid).rid = rid := by
  rw [rid_new_mod, Nat.mod_eq_of_lt h]

/-- A token of a known table is the one built from its table and its RID. -/
theorem new_rid {t : Token} {table : TableId} (h : t.table = some table) :
    new table t.rid = t := by
  have hbyte : table.toU8 = t.value.toNat >>> 24 := TableId.toU8_of_fromU8 h
  rw [Nat.shiftRight_eq_div_pow] at hbyte
  have hvalue : (new table t.rid).value.toNat = t.value.toNat := by
    have hrid := t.rid_lt
    rw [value_new, Nat.mod_eq_of_lt hrid, rid_eq_mod]
    omega
  have heq : (new table t.rid).value = t.value := UInt32.toNat_inj.mp hvalue
  cases t
  exact congrArg Token.mk heq

end Token

/-! ## Typed indices -/

/-- A 1-based row identifier within a statically known table. -/
structure Rid (table : TableId) where
  value : UInt32
  deriving DecidableEq, Repr

/-- A byte offset into the `#Strings` heap. -/
structure StringIndex where
  value : UInt32
  deriving DecidableEq, Repr

/-- A byte offset into the `#Blob` heap. -/
structure BlobIndex where
  value : UInt32
  deriving DecidableEq, Repr

/-- A 1-based index into the `#GUID` heap. -/
structure GuidIndex where
  value : UInt32
  deriving DecidableEq, Repr

/-- A `ldstr` operand: a `0x70` token whose low 24 bits are a `#US` offset. -/
structure UserStringToken where
  value : UInt32
  deriving DecidableEq, Repr

namespace UserStringToken

/-- The `#US` heap offset the token carries. -/
def offset (t : UserStringToken) : Nat := t.value.toNat &&& Token.ridMask

/-- The high byte is the expected `0x70`. -/
def hasUsTableByte (t : UserStringToken) : Bool := t.value.toNat >>> 24 == 0x70

theorem offset_eq_mod (t : UserStringToken) : t.offset = t.value.toNat % 2 ^ 24 :=
  Nat.and_two_pow_sub_one_eq_mod t.value.toNat 24

end UserStringToken

end Cildec
