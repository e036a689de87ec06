import CanonicalCwl.Plan.Union
import CanonicalCwl.Schema.Definition

/-!
# Record Plans

Where the fields of a record land in generated source. An optional type is planned as the type
itself, a union as its wrapper, an array by its elements, and what has no name, or is an array
of arrays, as anything. Of several fields of one name the first one counts.

- `FieldShape.ofType` is the place of a type, and `UnionSignature.ofType` lists the wrappers
  that it needs, each after those that it needs itself.
- `RecordPlan.ofRecord` plans a record.
-/

namespace CanonicalCwl

/-- Where the type of a field lands in generated source. -/
inductive FieldShape where
  | scalar (name : String)
  | ref (name : String)
  | array (item : FieldShape)
  /-- A wrapper, by name. -/
  | union (wrapper : String)
  deriving DecidableEq

namespace FieldShape

/-- The shape of whatever has no better one. -/
def any : FieldShape := scalar "Any"

/-- The shape of a type that is known by name. -/
def ofName (name : String) : FieldShape :=
  if TypeExpr.isScalarName name then scalar name else ref (localName name)

/-- The shape of a record or an enumeration written in place. -/
def ofInlineName (name : String) : FieldShape := if name.isEmpty then any else ref (localName name)

/-- The shape of a type. `wrapper` is the name of the wrapper that a union would get. -/
def ofType (wrapper : String) (t : TypeExpr) : FieldShape :=
  match _ : t.withoutNull with
  | .named name => ofName name
  | .record name _ | .enum name _ => ofInlineName name
  | .union members => if members.isEmpty then any else union wrapper
  | .array items =>
      -- The elements of an array get a wrapper of their own if they are a union.
      if items.withoutNull.isArray then array any
      else if items.withoutNull.severalMembers?.isSome then array (union (elementName wrapper))
      else array (ofType wrapper items.withoutNull)
termination_by sizeOf t
decreasing_by exact TypeExpr.sizeOf_item_lt (by assumption)

end FieldShape

/-- The wrappers that a type needs, each after those that it needs itself. -/
def UnionSignature.ofType (wrapper : String) (t : TypeExpr) : List UnionSignature :=
  match _ : t.withoutNull with
  | .union members => if members.isEmpty then [] else withElements wrapper members
  | .array items =>
      match items.withoutNull.severalMembers? with
      | some members => withElements (elementName wrapper) members
      | none => if items.withoutNull.isArray then [] else ofType wrapper items.withoutNull
  | _ => []
termination_by sizeOf t
decreasing_by exact TypeExpr.sizeOf_item_lt (by assumption)

/-- A field with the place it lands in. -/
structure PlannedField where
  name : String
  type : TypeExpr
  shape : FieldShape
  deriving DecidableEq

/-- What is generated for a record. -/
structure RecordPlan where
  name : String
  fields : List PlannedField
  /-- The wrappers that the fields need, each after those that it needs itself. -/
  unions : List UnionSignature
  deriving DecidableEq

namespace RecordPlan

/-- The first field of every name. -/
def firstOfEach : List Field → List Field
  | [] => []
  | f :: rest => f :: (firstOfEach rest).filter (·.name ≠ f.name)

/-- The name of the wrapper that a field of a record gets. -/
def wrapperName (record field : String) : String := record ++ Identifier.capitalized field

/-- The plan of a record. -/
def ofRecord (r : Schema.RecordDef) : RecordPlan :=
  let fields := firstOfEach r.fields
  { name := r.name
    fields := fields.map fun f =>
      ⟨f.name, f.type, FieldShape.ofType (wrapperName r.name f.name) f.type⟩
    unions := fields.flatMap fun f => UnionSignature.ofType (wrapperName r.name f.name) f.type }

end RecordPlan

/-! ## Types in words -/

namespace TypeExpr

mutual

/-- A type in words, as generated comments have it. -/
def describe : TypeExpr → String
  | named name => localName name
  | array items => describe items ++ "[]"
  | union members => describeAll members
  | record name _ => "record " ++ name
  | enum name _ => "enum " ++ name

/-- Types in words, separated by bars. -/
def describeAll : List TypeExpr → String
  | [] => ""
  | [t] => describe t
  | t :: rest => describe t ++ " | " ++ describeAll rest

end

end TypeExpr

end CanonicalCwl
