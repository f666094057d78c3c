import Cildec.Tables.Layout

/-!
# Typed rows (`src/tables/rows.rs`)

`define_rows!` turns a list of named, typed columns into a row struct and a decoder
that reads every column in order. `RowDef` is such a list, `Cells` the struct it
makes and `readCells` the decoder; each table has its list under its row's name.
-/

namespace Cildec

/-- The type of a column value: `col_ty!`. -/
def ColumnKind.Cell : ColumnKind → Type
  | .u16 => UInt16
  | .u32 => UInt32
  | .string => StringIndex
  | .blob => BlobIndex
  | .guid => GuidIndex
  | .rid target => Rid target
  | .coded _ => Token

/-- Reads one column: `col_read!`. -/
def readCell : (kind : ColumnKind) → EStateM Error RowCursor kind.Cell
  | .u16 => do
      let v ← RowCursor.uint
      return UInt16.ofNat v
  | .u32 => do
      let v ← RowCursor.uint
      return UInt32.ofNat v
  | .string => do
      let v ← RowCursor.uint
      return StringIndex.mk (UInt32.ofNat v)
  | .blob => do
      let v ← RowCursor.uint
      return BlobIndex.mk (UInt32.ofNat v)
  | .guid => do
      let v ← RowCursor.uint
      return GuidIndex.mk (UInt32.ofNat v)
  | .rid target => do
      let v ← RowCursor.uint
      return (Rid.mk (UInt32.ofNat v) : Rid target)
  | .coded kind => RowCursor.coded kind

/-- The values of a row's columns, in declaration order. -/
def Cells : List ColumnKind → Type
  | [] => Unit
  | kind :: kinds => kind.Cell × Cells kinds

/-- `TableRow::decode`: every column in order. -/
def readCells : (kinds : List ColumnKind) → EStateM Error RowCursor (Cells kinds)
  | [] => return ()
  | kind :: kinds => do
      let cell ← readCell kind
      let cells ← readCells kinds
      return (cell, cells)

/-- One entry of `define_rows!`: the table and its named columns. -/
structure RowDef where
  table : TableId
  fields : List (String × ColumnKind)

/-- `TableRow::COLUMNS`. -/
def RowDef.columns (row : RowDef) : List ColumnKind := row.fields.map (·.2)

/-! ## The rows -/

def moduleRow : RowDef where
  table := .module
  fields :=
    [("generation", .u16), ("name", .string), ("mvid", .guid), ("enc_id", .guid),
    ("enc_base_id", .guid)]

def typeRefRow : RowDef where
  table := .typeRef
  fields :=
    [("resolution_scope", .coded .resolutionScope), ("type_name", .string),
    ("type_namespace", .string)]

def typeDefRow : RowDef where
  table := .typeDef
  fields :=
    [("flags", .u32), ("type_name", .string), ("type_namespace", .string),
    ("extends", .coded .typeDefOrRef), ("field_list", .rid .field),
    ("method_list", .rid .methodDef)]

def fieldPtrRow : RowDef where
  table := .fieldPtr
  fields := [("field", .rid .field)]

def fieldRow : RowDef where
  table := .field
  fields := [("flags", .u16), ("name", .string), ("signature", .blob)]

def methodPtrRow : RowDef where
  table := .methodPtr
  fields := [("method", .rid .methodDef)]

def methodDefRow : RowDef where
  table := .methodDef
  fields :=
    [("rva", .u32), ("impl_flags", .u16), ("flags", .u16), ("name", .string),
    ("signature", .blob), ("param_list", .rid .param)]

def paramPtrRow : RowDef where
  table := .paramPtr
  fields := [("param", .rid .param)]

def paramRow : RowDef where
  table := .param
  fields := [("flags", .u16), ("sequence", .u16), ("name", .string)]

def interfaceImplRow : RowDef where
  table := .interfaceImpl
  fields := [("class", .rid .typeDef), ("interface", .coded .typeDefOrRef)]

def memberRefRow : RowDef where
  table := .memberRef
  fields := [("class", .coded .memberRefParent), ("name", .string), ("signature", .blob)]

def constantRow : RowDef where
  table := .constant
  fields := [("type_raw", .u16), ("parent", .coded .hasConstant), ("value", .blob)]

def customAttributeRow : RowDef where
  table := .customAttribute
  fields :=
    [("parent", .coded .hasCustomAttribute), ("constructor", .coded .customAttributeType),
    ("value", .blob)]

def fieldMarshalRow : RowDef where
  table := .fieldMarshal
  fields := [("parent", .coded .hasFieldMarshal), ("native_type", .blob)]

def declSecurityRow : RowDef where
  table := .declSecurity
  fields :=
    [("action", .u16), ("parent", .coded .hasDeclSecurity), ("permission_set", .blob)]

def classLayoutRow : RowDef where
  table := .classLayout
  fields := [("packing_size", .u16), ("class_size", .u32), ("parent", .rid .typeDef)]

def fieldLayoutRow : RowDef where
  table := .fieldLayout
  fields := [("offset", .u32), ("field", .rid .field)]

def standAloneSigRow : RowDef where
  table := .standAloneSig
  fields := [("signature", .blob)]

def eventMapRow : RowDef where
  table := .eventMap
  fields := [("parent", .rid .typeDef), ("event_list", .rid .event)]

def eventPtrRow : RowDef where
  table := .eventPtr
  fields := [("event", .rid .event)]

def eventRow : RowDef where
  table := .event
  fields := [("event_flags", .u16), ("name", .string), ("event_type", .coded .typeDefOrRef)]

def propertyMapRow : RowDef where
  table := .propertyMap
  fields := [("parent", .rid .typeDef), ("property_list", .rid .property)]

def propertyPtrRow : RowDef where
  table := .propertyPtr
  fields := [("property", .rid .property)]

def propertyRow : RowDef where
  table := .property
  fields := [("flags", .u16), ("name", .string), ("type_signature", .blob)]

def methodSemanticsRow : RowDef where
  table := .methodSemantics
  fields :=
    [("semantics", .u16), ("method", .rid .methodDef),
    ("association", .coded .hasSemantics)]

def methodImplRow : RowDef where
  table := .methodImpl
  fields :=
    [("class", .rid .typeDef), ("method_body", .coded .methodDefOrRef),
    ("method_declaration", .coded .methodDefOrRef)]

def moduleRefRow : RowDef where
  table := .moduleRef
  fields := [("name", .string)]

def typeSpecRow : RowDef where
  table := .typeSpec
  fields := [("signature", .blob)]

def implMapRow : RowDef where
  table := .implMap
  fields :=
    [("mapping_flags", .u16), ("member_forwarded", .coded .memberForwarded),
    ("import_name", .string), ("import_scope", .rid .moduleRef)]

def fieldRvaRow : RowDef where
  table := .fieldRva
  fields := [("rva", .u32), ("field", .rid .field)]

def encLogRow : RowDef where
  table := .encLog
  fields := [("token", .u32), ("func_code", .u32)]

def encMapRow : RowDef where
  table := .encMap
  fields := [("token", .u32)]

def assemblyRow : RowDef where
  table := .assembly
  fields :=
    [("hash_alg_id", .u32), ("major_version", .u16), ("minor_version", .u16),
    ("build_number", .u16), ("revision_number", .u16), ("flags", .u32),
    ("public_key", .blob), ("name", .string), ("culture", .string)]

def assemblyProcessorRow : RowDef where
  table := .assemblyProcessor
  fields := [("processor", .u32)]

def assemblyOsRow : RowDef where
  table := .assemblyOs
  fields :=
    [("os_platform_id", .u32), ("os_major_version", .u32), ("os_minor_version", .u32)]

def assemblyRefRow : RowDef where
  table := .assemblyRef
  fields :=
    [("major_version", .u16), ("minor_version", .u16), ("build_number", .u16),
    ("revision_number", .u16), ("flags", .u32), ("public_key_or_token", .blob),
    ("name", .string), ("culture", .string), ("hash_value", .blob)]

def assemblyRefProcessorRow : RowDef where
  table := .assemblyRefProcessor
  fields := [("processor", .u32), ("assembly_ref", .rid .assemblyRef)]

def assemblyRefOsRow : RowDef where
  table := .assemblyRefOs
  fields :=
    [("os_platform_id", .u32), ("os_major_version", .u32), ("os_minor_version", .u32),
    ("assembly_ref", .rid .assemblyRef)]

def fileRow : RowDef where
  table := .file
  fields := [("flags", .u32), ("name", .string), ("hash_value", .blob)]

def exportedTypeRow : RowDef where
  table := .exportedType
  fields :=
    [("flags", .u32), ("type_def_id", .u32), ("type_name", .string),
    ("type_namespace", .string), ("implementation", .coded .implementation)]

def manifestResourceRow : RowDef where
  table := .manifestResource
  fields :=
    [("offset", .u32), ("flags", .u32), ("name", .string),
    ("implementation", .coded .implementation)]

def nestedClassRow : RowDef where
  table := .nestedClass
  fields := [("nested_class", .rid .typeDef), ("enclosing_class", .rid .typeDef)]

def genericParamRow : RowDef where
  table := .genericParam
  fields :=
    [("number", .u16), ("flags", .u16), ("owner", .coded .typeOrMethodDef),
    ("name", .string)]

def methodSpecRow : RowDef where
  table := .methodSpec
  fields := [("method", .coded .methodDefOrRef), ("instantiation", .blob)]

def genericParamConstraintRow : RowDef where
  table := .genericParamConstraint
  fields := [("owner", .rid .genericParam), ("constraint", .coded .typeDefOrRef)]

def documentRow : RowDef where
  table := .document
  fields :=
    [("name", .blob), ("hash_algorithm", .guid), ("hash", .blob), ("language", .guid)]

def methodDebugInformationRow : RowDef where
  table := .methodDebugInformation
  fields := [("document", .rid .document), ("sequence_points", .blob)]

def localScopeRow : RowDef where
  table := .localScope
  fields :=
    [("method", .rid .methodDef), ("import_scope", .rid .importScope),
    ("variable_list", .rid .localVariable), ("constant_list", .rid .localConstant),
    ("start_offset", .u32), ("length", .u32)]

def localVariableRow : RowDef where
  table := .localVariable
  fields := [("attributes", .u16), ("index", .u16), ("name", .string)]

def localConstantRow : RowDef where
  table := .localConstant
  fields := [("name", .string), ("signature", .blob)]

def importScopeRow : RowDef where
  table := .importScope
  fields := [("parent", .rid .importScope), ("imports", .blob)]

def stateMachineMethodRow : RowDef where
  table := .stateMachineMethod
  fields := [("move_next_method", .rid .methodDef), ("kickoff_method", .rid .methodDef)]

def customDebugInformationRow : RowDef where
  table := .customDebugInformation
  fields :=
    [("parent", .coded .hasCustomDebugInformation), ("kind", .guid), ("value", .blob)]

/-! ## Columns of a table -/

/-- The row type of a table. -/
def rowOf : TableId → RowDef
  | .module => moduleRow
  | .typeRef => typeRefRow
  | .typeDef => typeDefRow
  | .fieldPtr => fieldPtrRow
  | .field => fieldRow
  | .methodPtr => methodPtrRow
  | .methodDef => methodDefRow
  | .paramPtr => paramPtrRow
  | .param => paramRow
  | .interfaceImpl => interfaceImplRow
  | .memberRef => memberRefRow
  | .constant => constantRow
  | .customAttribute => customAttributeRow
  | .fieldMarshal => fieldMarshalRow
  | .declSecurity => declSecurityRow
  | .classLayout => classLayoutRow
  | .fieldLayout => fieldLayoutRow
  | .standAloneSig => standAloneSigRow
  | .eventMap => eventMapRow
  | .eventPtr => eventPtrRow
  | .event => eventRow
  | .propertyMap => propertyMapRow
  | .propertyPtr => propertyPtrRow
  | .property => propertyRow
  | .methodSemantics => methodSemanticsRow
  | .methodImpl => methodImplRow
  | .moduleRef => moduleRefRow
  | .typeSpec => typeSpecRow
  | .implMap => implMapRow
  | .fieldRva => fieldRvaRow
  | .encLog => encLogRow
  | .encMap => encMapRow
  | .assembly => assemblyRow
  | .assemblyProcessor => assemblyProcessorRow
  | .assemblyOs => assemblyOsRow
  | .assemblyRef => assemblyRefRow
  | .assemblyRefProcessor => assemblyRefProcessorRow
  | .assemblyRefOs => assemblyRefOsRow
  | .file => fileRow
  | .exportedType => exportedTypeRow
  | .manifestResource => manifestResourceRow
  | .nestedClass => nestedClassRow
  | .genericParam => genericParamRow
  | .methodSpec => methodSpecRow
  | .genericParamConstraint => genericParamConstraintRow
  | .document => documentRow
  | .methodDebugInformation => methodDebugInformationRow
  | .localScope => localScopeRow
  | .localVariable => localVariableRow
  | .localConstant => localConstantRow
  | .importScope => importScopeRow
  | .stateMachineMethod => stateMachineMethodRow
  | .customDebugInformation => customDebugInformationRow

/-- The column layout of a table id, from its row type. -/
def columnsOf (table : TableId) : List ColumnKind := (rowOf table).columns

/-- A typed row of a table. -/
abbrev Row (table : TableId) : Type := Cells (columnsOf table)

/-- The largest number of columns any table has. -/
def maxColumns : Nat := 9

theorem rowOf_table (table : TableId) : (rowOf table).table = table := by
  cases table <;> rfl

theorem columnsOf_length_le (table : TableId) : (columnsOf table).length ≤ maxColumns := by
  cases table <;> decide

theorem columnsOf_ne_nil (table : TableId) : columnsOf table ≠ [] := by
  cases table <;> decide

end Cildec
