import CanonicalCwl.Entries

/-!
# Spelling Tables

Which types generated source spells in a way of its own, and which records it leaves out. The
tables are the defaults for the schema of workflow descriptions; a caller may extend them.
-/

namespace CanonicalCwl.Emit

/-- The tables for both kinds of generated source. -/
structure Tables where
  protoScalars : Entries String
  /-- Definitions that the interface description spells as a plain type. -/
  protoAliases : Entries String
  /-- Fields with a fixed type, by record; the record `*` stands for all records. -/
  protoFixed : Entries (Entries String)
  protoSkipped : List String
  rustScalars : Entries String
  rustSkipped : List String

namespace Tables

/-- The table entry of a list that the interface description keeps without its structure. -/
def structList (field : String) : String × String := (field, "repeated google.protobuf.Struct")

/-- The table entry of a list of texts. -/
def textList (field : String) : String × String := (field, "repeated string")

/-- The table entry of a text. -/
def text (field : String) : String × String := (field, "string")

/-- The default tables. -/
def default : Tables where
  protoScalars :=
    [("string", "string"), ("boolean", "bool"), ("int", "int64"), ("long", "int64"),
      ("float", "float"), ("double", "double"), ("Any", "google.protobuf.Struct"),
      ("null", "google.protobuf.NullValue")]
  protoAliases := [text "CWLVersion", text "LinkMergeMethod", text "ScatterMethod"]
  protoFixed :=
    [("Workflow", [structList "requirements"]),
      ("WorkflowStepInput", [textList "source"]),
      ("WorkflowOutputParameter", [textList "outputSource"]),
      ("ExpressionTool", [text "expression", structList "requirements"]),
      ("CommandOutputBinding", [textList "glob", text "outputEval"]),
      ("CommandLineTool",
        [text "stdout", text "stdin", text "stderr", textList "baseCommand",
          structList "requirements", ("arguments", "repeated CommandLineBinding")]),
      ("CommandInputParameter", [("default", "DataRecord")]),
      ("WorkflowStep",
        [("run", "RunRecord"), textList "scatter", structList "requirements",
          ("out", "repeated WorkflowStepOutput")]),
      ("EnvironmentDef", [text "envValue"]),
      ("*",
        [textList "doc", ("type", "TypeRecord"), text "valueFrom", textList "format",
          textList "secondaryFiles"])]
  protoSkipped :=
    ["Any", "ArraySchema", "CommandInputArraySchema", "OutputArraySchema", "InputArraySchema",
      "CommandOutputArraySchema", "SchemaDefRequirement"]
  rustScalars :=
    [("string", "String"), ("boolean", "bool"), ("int", "i32"), ("long", "i64"), ("float", "f32"),
      ("double", "f64"), ("Any", "serde_json::Value"), ("null", "()")]
  rustSkipped := ["Any"]

/-- The fixed type of a field of one record. -/
def fixedIn (t : Tables) (record field : String) : Option String :=
  (Entries.get? t.protoFixed record).bind fun fields => Entries.get? fields field

/-- The fixed type of a field, if it has one: its own record goes before all records. -/
def fixedType? (t : Tables) (record field : String) : Option String :=
  (t.fixedIn record field).or (t.fixedIn "*" field)

/-- Extend a table by entries that win over those it has. -/
def extended {α : Type} (table more : Entries α) : Entries α :=
  more.foldl (fun table e => Entries.insert table e.1 e.2) table

/-- Extend the fixed types, record by record. -/
def extendedFixed (table more : Entries (Entries String)) : Entries (Entries String) :=
  more.foldl
    (fun table e =>
      Entries.insert table e.1 (extended ((Entries.get? table e.1).getD []) e.2))
    table

/-- Extend every table. -/
def extendBy (t more : Tables) : Tables where
  protoScalars := extended t.protoScalars more.protoScalars
  protoAliases := extended t.protoAliases more.protoAliases
  protoFixed := extendedFixed t.protoFixed more.protoFixed
  protoSkipped := t.protoSkipped ++ more.protoSkipped
  rustScalars := extended t.rustScalars more.rustScalars
  rustSkipped := t.rustSkipped ++ more.rustSkipped

end Tables

end CanonicalCwl.Emit
