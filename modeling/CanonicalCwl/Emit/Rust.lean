import CanonicalCwl.Emit.Tables
import CanonicalCwl.Plan.Record

/-!
# Rust Definitions

The Rust source of a schema: an enumeration for every enumeration, a structure for every record
and for every wrapper, and a function that makes a record by its name.

- `Rust.Spelling` is the type of a field.
- `Rust.structs` are the structures that a registry gives.
- `Rust.emit` is the whole text.
-/

namespace CanonicalCwl.Emit.Rust

/-! ## Types -/

/-- The type of a field. -/
inductive Spelling where
  | name (path : String)
  | option (inner : Spelling)
  | vec (inner : Spelling)
  | box (inner : Spelling)
  deriving DecidableEq

/-- The text of a type. -/
def Spelling.text : Spelling → String
  | name path => path
  | option inner => "Option<" ++ inner.text ++ ">"
  | vec inner => "Vec<" ++ inner.text ++ ">"
  | box inner => "Box<" ++ inner.text ++ ">"

/-- The type of whatever has no better one. -/
def untyped : Spelling := .name "serde_json::Value"

/-- Whether a name is a record that is emitted. -/
def isRecord (tables : Tables) (reg : Schema.Registry) (name : String) : Bool :=
  (reg.record? name).isSome && !tables.rustSkipped.contains name

/-- The type of a value of a shape. -/
def valueType (tables : Tables) (reg : Schema.Registry) : FieldShape → Spelling
  | .scalar name => ((Entries.get? tables.rustScalars name).map .name).getD untyped
  | .ref name =>
      if (reg.enum? name).isSome || isRecord tables reg name || isElementName name then
        .name name
      else untyped
  | .union wrapper => .name wrapper
  | .array item => .vec (valueType tables reg item)

/-- The type of a field of a shape: single values are optional, and single records are boxed. -/
def fieldType (tables : Tables) (reg : Schema.Registry) : FieldShape → Spelling
  | .array item => .vec (valueType tables reg item)
  | .ref name =>
      if isRecord tables reg name then .option (.box (.name name))
      else .option (valueType tables reg (.ref name))
  | shape => .option (valueType tables reg shape)

/-! ## Definitions -/

/-- A field of a structure. -/
structure Field where
  /-- The name in the schema. -/
  raw : String
  ident : String
  type : Spelling
  deriving DecidableEq

/-- A structure. -/
structure Struct where
  name : String
  fields : List Field
  /-- Whether the structure can tell its id. -/
  hasId : Bool
  deriving DecidableEq

/-- A field that holds an optional id. -/
def Field.isId (f : Field) : Bool := f.ident == "id" && f.type.text == "Option<String>"

/-- The field for a name and a shape. -/
def field (tables : Tables) (reg : Schema.Registry) (name : String) (shape : FieldShape) : Field :=
  ⟨name, Identifier.snakeCase name, fieldType tables reg shape⟩

/-- The structure of a record. -/
def recordStruct (tables : Tables) (reg : Schema.Registry) (plan : RecordPlan) : Struct :=
  let fields := plan.fields.map fun f => field tables reg f.name f.shape
  ⟨plan.name, fields, fields.any (·.isId)⟩

/-- The shape of a member of a wrapper. -/
def memberShape (m : UnionMember) : FieldShape :=
  let shape :=
    if TypeExpr.isScalarName m.underlying then FieldShape.scalar m.underlying
    else FieldShape.ref m.underlying
  if m.isArray then .array shape else shape

/-- The structure of a wrapper. -/
def wrapperStruct (tables : Tables) (reg : Schema.Registry) (u : UnionSignature) : Struct :=
  ⟨u.name, u.members.map fun m => field tables reg m.wrapper (memberShape m), false⟩

/-- The records that are emitted. -/
def emittedRecords (tables : Tables) (reg : Schema.Registry) : List Schema.RecordDef :=
  reg.records.filter fun r => !tables.rustSkipped.contains r.name

/-- The structures of a record: its own, then those of its wrappers. -/
def recordStructs (tables : Tables) (reg : Schema.Registry) (r : Schema.RecordDef) :
    List Struct :=
  let plan := RecordPlan.ofRecord r
  recordStruct tables reg plan :: plan.unions.map (wrapperStruct tables reg)

/-- The structures that a registry gives. -/
def structs (tables : Tables) (reg : Schema.Registry) : List Struct :=
  (emittedRecords tables reg).flatMap (recordStructs tables reg)

/-! ## Text -/

/-- The lines that the source begins with. -/
def preamble : String :=
  "// Generated by cwl-lite from a schema description.\n" ++
    "#![allow(non_camel_case_types, clippy::all)]\n\nuse serde::\x7bDeserialize, Serialize\x7d;\n"

/-- The text of an enumeration. -/
def enumText (e : Schema.EnumDef) : String :=
  "\n#[derive(Debug, Clone, Copy, PartialEq, Eq, Hash, Serialize, Deserialize)]\npub enum " ++
    e.name ++ " \x7b" ++
    String.join (e.symbols.map fun s =>
      "\n    #[serde(rename = \"" ++ s ++ "\")]\n    " ++ Identifier.capitalized s ++ ",") ++
    "\n\x7d\n"

/-- The text of a field. -/
def Field.text (f : Field) : String :=
  "\n    #[serde(rename = \"" ++ f.raw ++ "\", default)]\n    pub " ++ f.ident ++ ": " ++
    f.type.text ++ ","

/-- The text of the function that tells the id of a structure. -/
def idText (name : String) : String :=
  "\n\nimpl " ++ name ++ " \x7b\n    pub fn id(&self) -> Option<&str> \x7b\n" ++
    "        self.id.as_deref()\n    \x7d\n\x7d"

/-- The text of a structure. -/
def Struct.text (s : Struct) : String :=
  "\n#[derive(Debug, Clone, Default, PartialEq, Serialize, Deserialize)]\npub struct " ++ s.name ++
    " \x7b" ++ String.join (s.fields.map Field.text) ++ "\n\x7d" ++
    (if s.hasId then idText s.name else "") ++ "\n"

/-- The text of the list of names and of the function that makes a record by its name. -/
def constructorText (names : List String) : String :=
  "\npub const TYPE_NAMES: &[&str] = &[" ++
    String.join (names.map fun n => "\n    \"" ++ n ++ "\",") ++
    "\n];\n\n/// Construct a default instance of any generated record by its schema name.\n" ++
    "pub fn new_by_name(name: &str) -> Option<Box<dyn std::any::Any>> \x7b\n    match name \x7b" ++
    String.join (names.map fun n =>
      "\n        \"" ++ n ++ "\" => Some(Box::new(" ++ n ++ "::default())),") ++
    "\n        _ => None,\n    \x7d\n\x7d\n"

/-- The Rust source of a registry. -/
def emit (tables : Tables) (reg : Schema.Registry) : String :=
  preamble ++ String.join (reg.enums.map enumText) ++
    constructorText ((emittedRecords tables reg).map (·.name)) ++
    String.join ((structs tables reg).map Struct.text)

end CanonicalCwl.Emit.Rust
