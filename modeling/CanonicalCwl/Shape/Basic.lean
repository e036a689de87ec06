import CanonicalCwl.Value

/-!
# Shapes of Canonical Documents

The contract of the canonical form, as data: for every record its fields in order, and for
every tagged alternative its arms. A shape is what one place of a document may hold; reading,
writing and every diagnostic follow these tables.

- `RecordKind.slots` lists the fields of a record.
- `ChoiceKind.arms` lists the arms of an alternative.
-/

namespace CanonicalCwl

/-- The records of the canonical form. -/
inductive RecordKind where
  | commandLineTool
  | expressionTool
  | workflow
  | inputParameter
  | outputParameter
  | commandLineBinding
  | outputBinding
  | step
  | stepInput
  | stepOutput
  | graph
  | arrayType
  | unionType
  | recordType
  | enumType
  | field
  deriving DecidableEq

/-- The tagged alternatives of the canonical form. -/
inductive ChoiceKind where
  /-- A process, tagged by its class. -/
  | process
  /-- What a step runs. -/
  | run
  /-- A default, tagged by its kind. -/
  | data
  /-- A type expression. -/
  | type
  deriving DecidableEq

/-- What one place of a canonical document may hold. -/
inductive Shape where
  | text
  | flag
  | integer
  /-- A float; an integer is read as one. -/
  | real
  /-- Any tree, kept as it is. -/
  | anything
  /-- Any mapping, kept as it is. -/
  | mapping
  /-- A list of one shape. -/
  | listOf (item : Shape)
  | record (kind : RecordKind)
  | choice (kind : ChoiceKind)
  deriving DecidableEq

/-- Whether a field has to be present, and how an absent one is written. -/
inductive Presence where
  /-- The field has to be present. -/
  | required
  /-- The field may be absent or null, and is then not written. -/
  | optional
  /-- A list that may be absent; the empty list is not written. -/
  | omittedWhenEmpty
  /-- The field may be absent, and is then written with this value. -/
  | defaulted (value : Value)

/-- A field of a record: its name, its shape and its presence. -/
structure Slot where
  name : String
  shape : Shape
  presence : Presence

namespace Slot

/-- A field that has to be present. -/
def required (name : String) (shape : Shape) : Slot := ⟨name, shape, .required⟩

/-- A field that may be absent or null. -/
def optional (name : String) (shape : Shape) : Slot := ⟨name, shape, .optional⟩

/-- A list that may be absent and is not written when empty. -/
def list (name : String) (item : Shape) : Slot := ⟨name, .listOf item, .omittedWhenEmpty⟩

/-- A field with a default that is always written. -/
def defaulted (name : String) (shape : Shape) (value : Value) : Slot :=
  ⟨name, shape, .defaulted value⟩

end Slot

namespace RecordKind

/-- The name of a record in diagnostics. -/
def name : RecordKind → String
  | commandLineTool => "CommandLineTool"
  | expressionTool => "ExpressionTool"
  | workflow => "Workflow"
  | inputParameter => "InputParameter"
  | outputParameter => "OutputParameter"
  | commandLineBinding => "CommandLineBinding"
  | outputBinding => "CommandOutputBinding"
  | step => "WorkflowStep"
  | stepInput => "WorkflowStepInput"
  | stepOutput => "WorkflowStepOutput"
  | graph => "GraphRecord"
  | arrayType => "ArraySchema"
  | unionType => "OneOfSchema"
  | recordType => "RecordSchema"
  | enumType => "EnumSchema"
  | field => "FieldDef"

/-- The fields every process begins with. -/
def headerSlots : List Slot :=
  [ .optional "id" .text,
    .optional "class" .text,
    .optional "cwlVersion" .text,
    .optional "label" .text,
    .list "doc" .text,
    .list "inputs" (.record .inputParameter),
    .list "outputs" (.record .outputParameter),
    .list "requirements" .mapping,
    .list "hints" .mapping ]

/-- The fields every process ends with. -/
def footerSlots : List Slot :=
  [ .optional "$namespaces" .anything,
    .optional "$schemas" .anything ]

/-- The fields of a record, in the order they are written. -/
def slots : RecordKind → List Slot
  | commandLineTool =>
      headerSlots ++
      [ .list "baseCommand" .text,
        .list "arguments" (.record .commandLineBinding),
        .optional "stdin" .text,
        .optional "stdout" .text,
        .optional "stderr" .text,
        .list "successCodes" .integer,
        .list "temporaryFailCodes" .integer,
        .list "permanentFailCodes" .integer ] ++
      footerSlots
  | expressionTool =>
      headerSlots ++ [ .defaulted "expression" .text (.string "") ] ++ footerSlots
  | workflow =>
      headerSlots ++ [ .list "steps" (.record .step) ] ++ footerSlots
  | inputParameter =>
      [ .optional "id" .text,
        .optional "label" .text,
        .list "doc" .text,
        .optional "type" (.choice .type),
        .optional "default" (.choice .data),
        .optional "inputBinding" (.record .commandLineBinding),
        .optional "streamable" .flag,
        .optional "format" .anything,
        .optional "secondaryFiles" .anything ]
  | outputParameter =>
      [ .optional "id" .text,
        .optional "label" .text,
        .list "doc" .text,
        .optional "type" (.choice .type),
        .optional "outputBinding" (.record .outputBinding),
        .list "outputSource" .text,
        .optional "linkMerge" .text,
        .optional "streamable" .flag,
        .optional "format" .anything,
        .optional "secondaryFiles" .anything ]
  | commandLineBinding =>
      [ .optional "position" .integer,
        .optional "prefix" .text,
        .optional "separate" .flag,
        .optional "itemSeparator" .text,
        .optional "valueFrom" .text,
        .optional "shellQuote" .flag,
        .optional "loadContents" .flag ]
  | outputBinding =>
      [ .list "glob" .text,
        .optional "loadContents" .flag,
        .optional "outputEval" .text ]
  | step =>
      [ .optional "id" .text,
        .optional "label" .text,
        .list "doc" .text,
        .list "in" (.record .stepInput),
        .list "out" (.record .stepOutput),
        .required "run" (.choice .run),
        .list "requirements" .mapping,
        .list "hints" .mapping,
        .list "scatter" .text,
        .optional "scatterMethod" .text ]
  | stepInput =>
      [ .optional "id" .text,
        .list "source" .text,
        .optional "linkMerge" .text,
        .optional "default" .anything,
        .optional "valueFrom" .text ]
  | stepOutput => [ .required "id" .text ]
  | graph =>
      [ .optional "cwlVersion" .text,
        .defaulted "graph" (.listOf (.choice .process)) (.sequence []) ]
  | arrayType => [ .required "items" (.choice .type) ]
  | unionType => [ .required "types" (.listOf (.choice .type)) ]
  | recordType =>
      [ .defaulted "name" .text (.string ""),
        .defaulted "fields" (.listOf (.record .field)) (.sequence []) ]
  | enumType =>
      [ .defaulted "name" .text (.string ""),
        .required "symbols" (.listOf .text) ]
  | field =>
      [ .required "name" .text,
        .required "type" (.choice .type),
        .list "doc" .text,
        .optional "default" .anything ]

/-- The names of the fields, in order. -/
def fieldNames (r : RecordKind) : List String := r.slots.map (·.name)

/-- The field with a name. -/
def slot? (r : RecordKind) (name : String) : Option Slot := r.slots.find? (·.name == name)

end RecordKind

namespace ChoiceKind

/-- The arms of an alternative, in order. -/
def arms : ChoiceKind → Entries Shape
  | process =>
      [ ("commandline", .record .commandLineTool),
        ("expression", .record .expressionTool),
        ("workflow", .record .workflow) ]
  | run =>
      [ ("path", .text),
        ("commandline", .record .commandLineTool),
        ("expression", .record .expressionTool),
        ("workflow", .record .workflow) ]
  | data =>
      [ ("string_value", .text),
        ("struct_value", .mapping),
        ("float_value", .real),
        ("int_value", .integer),
        ("list_value", .listOf .anything),
        ("bool_value", .flag) ]
  | type =>
      [ ("name", .text),
        ("array", .record .arrayType),
        ("oneof", .record .unionType),
        ("record", .record .recordType),
        ("enum", .record .enumType) ]

end ChoiceKind

end CanonicalCwl
