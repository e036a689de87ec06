import CanonicalCwl.Shape.Field
import CanonicalCwl.Shape.Read
import CanonicalCwl.TypeExpr.Basic

/-!
# Type Expressions as Trees

The tagged tree of a type expression and the expression of a tagged tree. `TypeExpr.decode`
reads any tree by the shape of type expressions; `TypeExpr.ofTree` only looks at trees that
this reading has put in canonical form.
-/

namespace CanonicalCwl

/-- The tree of a field whose type has the given tree. -/
def FieldOf.treeWith {τ : Type} (f : FieldOf τ) (type : Value) : Value :=
  .mapping ([("name", .string f.name), ("type", type)] ++
    Entries.listed "doc" (f.doc.map .string) ++ Entries.optional "default" f.default)

namespace TypeExpr

mutual

/-- The tagged tree of a type expression. -/
def toTree : TypeExpr → Value
  | named name => .tagged "name" (.string name)
  | array items => .tagged "array" (.mapping [("items", toTree items)])
  | union members => .tagged "oneof" (.mapping [("types", .sequence (toTrees members))])
  | record name fields =>
      .tagged "record"
        (.mapping [("name", .string name), ("fields", .sequence (fieldTrees fields))])
  | enum name symbols =>
      .tagged "enum" (.mapping [("name", .string name), ("symbols", .strings symbols)])

/-- The trees of a list of type expressions. -/
def toTrees : List TypeExpr → List Value
  | [] => []
  | t :: ts => toTree t :: toTrees ts

/-- The trees of a list of fields. -/
def fieldTrees : List (FieldOf TypeExpr) → List Value
  | [] => []
  | f :: fs =>
      f.treeWith (toTree f.type) :: fieldTrees fs

end

/-- The tree of a field. -/
def fieldTree (f : Field) : Value := f.treeWith (toTree f.type)

mutual

/-- The type expression of a canonical tree. -/
def ofTree : Value → TypeExpr
  | .mapping [("name", .string name)] => named name
  | .mapping [("array", .mapping [("items", items)])] => array (ofTree items)
  | .mapping [("oneof", .mapping [("types", .sequence members)])] => union (ofTrees members)
  | .mapping [("record", .mapping [("name", .string name), ("fields", .sequence fields)])] =>
      record name (fieldsOfTrees fields)
  | .mapping [("enum", .mapping [("name", .string name), ("symbols", .sequence symbols)])] =>
      enum name (symbols.filterMap Value.string?)
  | _ => named ""

/-- The type expressions of a list of canonical trees. -/
def ofTrees : List Value → List TypeExpr
  | [] => []
  | v :: vs => ofTree v :: ofTrees vs

/-- The fields of a list of canonical trees. -/
def fieldsOfTrees : List Value → List (FieldOf TypeExpr)
  | [] => []
  | v :: vs => fieldOfTree v :: fieldsOfTrees vs

/-- The field of a canonical tree. -/
def fieldOfTree : Value → FieldOf TypeExpr
  | .mapping (("name", .string name) :: ("type", type) :: rest) =>
      { name, type := ofTree type,
        doc := (Value.mapping rest).stringsAt "doc", default := Entries.get? rest "default" }
  | _ => ⟨"", named "", [], none⟩

end

/-- Read any tree as a type expression. -/
def decode (v : Value) : Except Mismatch TypeExpr :=
  ((Shape.choice .type).read v).map ofTree

end TypeExpr

end CanonicalCwl
