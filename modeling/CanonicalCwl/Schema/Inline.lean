import CanonicalCwl.Schema.Definition

/-!
# Inline Definitions

A named record or enumeration that is written in place of a type counts as a definition of its
own, and the place refers to it by name. An anonymous one stays where it is, with all it holds.

- `TypeExpr.lifted` is the type that remains.
- `TypeExpr.inlineDefinitions` lists the definitions, inner ones before those that enclose them.
-/

namespace CanonicalCwl

open Schema

namespace TypeExpr

mutual

/-- The type with its named records and enumerations replaced by references. -/
def lifted : TypeExpr → TypeExpr
  | named name => named name
  | array items => array (lifted items)
  | union members => union (liftedAll members)
  | record name fields => if name.isEmpty then record name fields else named (localName name)
  | enum name symbols => if name.isEmpty then enum name symbols else named (localName name)

/-- The members of a union with their named records and enumerations replaced. -/
def liftedAll : List TypeExpr → List TypeExpr
  | [] => []
  | t :: rest => lifted t :: liftedAll rest

end

/-- The field with the named records and enumerations of its type replaced. -/
def liftedField (f : Field) : Field := { f with type := lifted f.type }

mutual

/-- The definitions written in place inside a type, inner ones first. -/
def inlineDefinitions : TypeExpr → List Definition
  | named _ => []
  | array items => inlineDefinitions items
  | union members => inlineAll members
  | record name fields =>
      if name.isEmpty then []
      else
        inlineFields fields ++
          [.record ⟨localName name, fields.map liftedField, [], []⟩]
  | enum name symbols =>
      if name.isEmpty then [] else [.enum ⟨localName name, symbols, []⟩]

/-- The definitions written in place inside the members of a union. -/
def inlineAll : List TypeExpr → List Definition
  | [] => []
  | t :: rest => inlineDefinitions t ++ inlineAll rest

/-- The definitions written in place inside the types of fields. -/
def inlineFields : List (FieldOf TypeExpr) → List Definition
  | [] => []
  | f :: rest => inlineDefinitions f.type ++ inlineFields rest

end

end TypeExpr

end CanonicalCwl
