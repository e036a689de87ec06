import CanonicalCwl.Emit.Tables
import CanonicalCwl.Plan.Record

/-!
# Interface Descriptions

The Protocol-Buffer interface description of a schema: the messages that describe canonical
documents, an enumeration for every enumeration, and a message for every record and for every
wrapper that some emitted field needs.

- `Proto.blocks` are the definitions that a registry gives.
- `Proto.emit` is the whole text.
-/

namespace CanonicalCwl.Emit.Proto

/-! ## Definitions and their text -/

/-- A numbered field. -/
structure Field where
  type : String
  name : String
  /-- What the field was before a fixed type took its place; empty for none. -/
  comment : String
  deriving DecidableEq

/-- A definition of the description. -/
inductive Block where
  | enum (name : String) (values : List String)
  | message (name : String) (fields : List Field)
  /-- A message that holds exactly one of its fields. -/
  | oneof (name group : String) (fields : List Field)
  deriving DecidableEq

/-- The lines of a block, each made from an item and its number. -/
def numbered {α : Type} (line : α → Nat → String) (start : Nat) (items : List α) : String :=
  String.join ((items.zipIdx start).map fun (a, n) => line a n)

/-- The line of a value of an enumeration. -/
def valueLine (value : String) (number : Nat) : String :=
  "\n    " ++ value ++ " = " ++ toString number ++ ";"

/-- The line of a field at an indentation. -/
def fieldLine (indent : String) (f : Field) (number : Nat) : String :=
  "\n" ++ indent ++ f.type ++ " " ++ f.name ++ " = " ++ toString number ++ ";" ++
    (if f.comment.isEmpty then "" else " //" ++ f.comment)

/-- A definition with a header and a body in braces. -/
def braced (header body : String) : String := "\n" ++ header ++ " \x7b" ++ body ++ "\n\x7d\n"

/-- The text of a definition. -/
def Block.text : Block → String
  | enum name values => braced ("enum " ++ name) (numbered valueLine 0 values)
  | message name fields => braced ("message " ++ name) (numbered (fieldLine "    ") 1 fields)
  | oneof name group fields =>
      braced ("message " ++ name)
        ("\n    oneof " ++ group ++ " \x7b" ++ numbered (fieldLine "        ") 1 fields ++
          "\n    \x7d")

/-! ## What every description begins with -/

/-- A field without a comment. -/
def plainField (type name : String) : Field := ⟨type, name, ""⟩

/-- The first lines of a description. -/
def preamble : String :=
  "\nsyntax = \"proto3\";\n\nimport \"google/protobuf/struct.proto\";\n"

/-- The messages that describe canonical documents. -/
def documentBlocks : List Block :=
  [.message "ArrayRecord" [plainField "TypeRecord" "items"],
    .message "FieldRecord" [plainField "string" "name", plainField "TypeRecord" "type"],
    .message "RecordRecord"
      [plainField "string" "name", plainField "repeated FieldRecord" "fields"],
    .message "EnumRecord" [plainField "string" "name", plainField "repeated string" "symbols"],
    .message "OneOfRecord" [plainField "repeated TypeRecord" "types"],
    .oneof "TypeRecord" "type"
      [plainField "string" "name", plainField "ArrayRecord" "array",
        plainField "OneOfRecord" "oneof", plainField "RecordRecord" "record",
        plainField "EnumRecord" "enum"],
    .oneof "RunRecord" "run"
      [plainField "string" "path", plainField "CommandLineTool" "commandline",
        plainField "ExpressionTool" "expression", plainField "Workflow" "workflow"],
    .oneof "DataRecord" "data"
      [plainField "string" "string_value", plainField "google.protobuf.Struct" "struct_value",
        plainField "double" "float_value", plainField "int64" "int_value",
        plainField "google.protobuf.ListValue" "list_value", plainField "bool" "bool_value"],
    .oneof "CWLClass" "class"
      [plainField "Workflow" "workflow", plainField "CommandLineTool" "commandline",
        plainField "ExpressionTool" "expression"],
    .message "GraphRecord"
      [plainField "string" "cwlVersion", plainField "repeated CWLClass" "graph"]]

/-! ## What a schema gives -/

/-- The type of whatever has no better one. -/
def untyped : String := "google.protobuf.Struct"

/-- The spelling of a name: by the tables, or as it is if it is a definition that is emitted or
a wrapper of array elements. -/
def nameType (tables : Tables) (reg : Schema.Registry) (name : String) : String :=
  -- The wrappers of array elements are not in the registry and are known by their ending.
  match (Entries.get? tables.protoAliases name).or (Entries.get? tables.protoScalars name) with
  | some spelled => spelled
  | none =>
      if Entries.contains reg name && !tables.protoSkipped.contains name ||
          isElementName name then name
      else untyped

/-- The spelling of a list. -/
def repeated (type : String) : String := "repeated " ++ type

/-- The spelling of a shape. -/
def shapeType (tables : Tables) (reg : Schema.Registry) : FieldShape → String
  | .scalar name | .ref name => nameType tables reg name
  | .union wrapper => wrapper
  | .array item => repeated (shapeType tables reg item)

/-- Hyphens and points are not allowed in the name of a field. -/
def fieldName (name : String) : String :=
  String.ofList (name.toList.map fun c => if c = '-' ∨ c = '.' then '_' else c)

/-- The comment of a field with a fixed type: the type it had, if that was a union or an
array. -/
def fixedComment (f : PlannedField) : String :=
  match f.shape with
  | .union _ | .array _ => f.type.describe
  | .scalar _ | .ref _ => ""

/-- A planned field of a record. -/
def recordField (tables : Tables) (reg : Schema.Registry) (record : String) (f : PlannedField) :
    Field :=
  match tables.fixedType? record f.name with
  | some fixed => ⟨fixed, fieldName f.name, fixedComment f⟩
  | none => plainField (shapeType tables reg f.shape) (fieldName f.name)

/-- The fields of the message of a record. -/
def recordFields (tables : Tables) (reg : Schema.Registry) (plan : RecordPlan) : List Field :=
  plan.fields.map (recordField tables reg plan.name)

/-- A member of a wrapper. -/
def memberField (tables : Tables) (reg : Schema.Registry) (m : UnionMember) : Field :=
  let type := nameType tables reg m.underlying
  plainField (if m.isArray then repeated type else type) (Identifier.snakeCase m.wrapper)

/-- The message of a wrapper. -/
def wrapperBlock (tables : Tables) (reg : Schema.Registry) (u : UnionSignature) : Block :=
  .message u.name (u.members.map (memberField tables reg))

/-- Whether a field has a wrapper as its type, possibly repeated. -/
def Field.mentions (f : Field) (wrapper : String) : Bool :=
  f.type == wrapper || f.type == repeated wrapper

/-- Whether a wrapper of the plan has a member that goes by the name of this one. -/
def isNested (plan : RecordPlan) (u : UnionSignature) : Bool :=
  plan.unions.any fun outer => outer.members.any fun m => m.underlying == u.name

/-- The wrappers of a plan that are emitted: those that a field of the record has as its type,
and those inside other wrappers. A field with a fixed type needs none. -/
def emittedWrappers (fields : List Field) (plan : RecordPlan) : List UnionSignature :=
  plan.unions.filter fun u => fields.any (·.mentions u.name) || isNested plan u

/-- The definitions of a record: its wrappers, then its message. -/
def recordBlocks (tables : Tables) (reg : Schema.Registry) (r : Schema.RecordDef) : List Block :=
  let plan := RecordPlan.ofRecord r
  let fields := recordFields tables reg plan
  (emittedWrappers fields plan).map (wrapperBlock tables reg) ++ [.message plan.name fields]

/-- The definition of an enumeration. -/
def enumBlock (e : Schema.EnumDef) : Block :=
  .enum e.name (e.symbols.map fun s => e.name ++ "_" ++ Identifier.capitalized s)

/-- The records that are emitted. -/
def emittedRecords (tables : Tables) (reg : Schema.Registry) : List Schema.RecordDef :=
  reg.records.filter fun r => !tables.protoSkipped.contains r.name

/-- The definitions that a registry gives: its enumerations, then its records. -/
def blocks (tables : Tables) (reg : Schema.Registry) : List Block :=
  reg.enums.map enumBlock ++ (emittedRecords tables reg).flatMap (recordBlocks tables reg)

/-- The interface description of a registry. -/
def emit (tables : Tables) (reg : Schema.Registry) : String :=
  preamble ++ String.join ((documentBlocks ++ blocks tables reg).map Block.text)

end CanonicalCwl.Emit.Proto
