import CanonicalCwl.Schema.Diagnostic
import CanonicalCwl.TypeExpr.Basic

/-!
# The Notation of Types

How types are written in raw documents and in schema descriptions, and how they are read.

- A text is a name, with `T?` for the union of `null` and `T`, and `T[]` for the array of `T`.
- A sequence is the union of its members.
- A mapping spells out an array, a record or an enumeration by its `type`.

`TypeExpr.resolve` reads this notation and `TypeExpr.toCwl` writes it, with the short forms
wherever they can express the type. A field of a record whose own type is not recognized is
left out of the record; `resolveFields` tells for every entry what became of it.
-/

namespace CanonicalCwl

/-- Documentation as a list: a text is one paragraph, and of a sequence only the texts count. -/
def docTexts : Option Value → List String
  | some (.string s) => [s]
  | some (.sequence items) => items.filterMap Value.string?
  | _ => []

/-- The texts of a sequence of nothing but texts. -/
def allStrings? : Option Value → Option (List String)
  | some (.sequence items) => items.mapM Value.string?
  | _ => none

namespace TypeExpr

/-- The short notation, read from its end. -/
def ofReversed : List Char → TypeExpr
  | '?' :: rest => optional (ofReversed rest)
  | ']' :: '[' :: rest => array (ofReversed rest)
  | cs => named (String.ofList cs.reverse)

/-- The type that a text stands for. -/
def ofShorthand (s : String) : TypeExpr := ofReversed s.toList.reverse

/-- The diagnostic for a node that is no type expression. -/
def unrecognized (context : String) (node : Value) : Diagnostic :=
  .unrecognizedNode context node.kind

/-- Whether a mapping is itself a type expression and not the declaration of a field. -/
def isTypeMapping (entries : Mapping) : Bool :=
  (match (Entries.get? entries "type").bind Value.string? with
    | some "array" | some "record" | some "enum" => true
    | _ => false) &&
  (Entries.contains entries "items" || Entries.contains entries "symbols" ||
    Entries.contains entries "fields")

/-- Whether a mapping declares a field: its `type` is the type of the field. -/
def declaresField (entries : Mapping) : Bool :=
  Entries.contains entries "type" && !isTypeMapping entries

/-- The context of a field inside the context of its record. -/
def fieldContext (context name : String) : String := context ++ "." ++ name

/-- What becomes of the entry of a record's fields, given what its type resolves to. -/
def fieldOutcome (context name : String) (entry : Value) (type : Except Diagnostic TypeExpr) :
    Except Diagnostic Field :=
  if name.isEmpty then .error (.missingName context "field")
  else
    match entry, type with
    | _, .error d => .error d
    | .mapping entries, .ok type =>
        if declaresField entries then
          .ok { name, type, doc := docTexts (Entries.get? entries "doc"),
                default := Entries.get? entries "default" }
        else .ok { name, type, doc := [], default := none }
    | _, .ok type => .ok { name, type, doc := [], default := none }

mutual

/-- The type expression of a node. `context` names the place of the node in diagnostics. -/
def resolve (context : String) : Value → Except Diagnostic TypeExpr
  | .string s => .ok (ofShorthand s)
  | .sequence members => do return union (← resolveAll context members)
  | .mapping entries =>
      match (Entries.get? entries "type").bind Value.string? with
      | some "array" =>
          match resolveUnder "items" context entries with
          | some items => do return array (← items)
          | none => .error (unrecognized context (.mapping entries))
      | some "record" =>
          let name := ((Entries.get? entries "name").bind Value.string?).getD ""
          -- A named record is a place of its own for diagnostics.
          let inner := if name.isEmpty then context else name
          .ok (record name ((fieldsUnder inner entries).filterMap Except.toOption))
      | some "enum" =>
          let name := ((Entries.get? entries "name").bind Value.string?).getD ""
          match allStrings? (Entries.get? entries "symbols") with
          | some symbols => .ok (enum name symbols)
          | none => .error (unrecognized context (.mapping entries))
      | _ => .error (unrecognized context (.mapping entries))
  | node => .error (unrecognized context node)

/-- The type expressions of the members of a union. -/
def resolveAll (context : String) : List Value → Except Diagnostic (List TypeExpr)
  | [] => .ok []
  | v :: rest => do
      let t ← resolve context v
      return t :: (← resolveAll context rest)

/-- The type expression of the node under a key, if the key is present. -/
def resolveUnder (key context : String) :
    List (String × Value) → Option (Except Diagnostic TypeExpr)
  | [] => none
  | (k, v) :: rest => if k = key then some (resolve context v) else resolveUnder key context rest

/-- The type that a field declaration gives under `type`; a value that is the type itself
declares none. -/
def declaredType (context : String) : Value → Option (Except Diagnostic TypeExpr)
  | .mapping entries =>
      if declaresField entries then resolveUnder "type" context entries else none
  | _ => none

/-- What becomes of the fields of a record, in order; nothing is there without `fields`. -/
def fieldsUnder (context : String) : List (String × Value) → List (Except Diagnostic Field)
  | [] => []
  | (k, v) :: rest => if k = "fields" then resolveFields context v else fieldsUnder context rest

/-- What becomes of the entries of a list or a mapping of fields, in order. -/
def resolveFields (context : String) : Value → List (Except Diagnostic Field)
  | .sequence items => listedFields context items
  | .mapping entries => keyedFields context entries
  | v => [.error (unrecognized context v)]

/-- What becomes of listed fields, each with its own `name`. -/
def listedFields (context : String) : List Value → List (Except Diagnostic Field)
  | [] => []
  | v :: rest =>
      let name := (v.text? "name").getD ""
      let inner := fieldContext context name
      let type := (declaredType inner v).getD (resolve inner v)
      fieldOutcome context name v type :: listedFields context rest

/-- What becomes of keyed fields. A value may be the type itself. -/
def keyedFields (context : String) : List (String × Value) → List (Except Diagnostic Field)
  | [] => []
  | (name, v) :: rest =>
      let inner := fieldContext context name
      let type := (declaredType inner v).getD (resolve inner v)
      fieldOutcome context name v type :: keyedFields context rest

end

/-- Whether a text ends as a short notation of an optional type does. -/
def endsOptional (s : String) : Bool := s.toList.getLast? == some '?'

/-- The union of `null` and a type, from the notation of the type. -/
def optionalToCwl : Value → Value
  | .string s =>
      -- A second question mark would read back as an optional of an optional.
      if endsOptional s then .sequence [.string "null", .string s] else .string (s ++ "?")
  | other => .sequence [.string "null", other]

/-- Documentation as it is written: one paragraph is a text, none is not written. -/
def docToCwl : List String → Mapping
  | [] => []
  | [one] => [("doc", .string one)]
  | many => [("doc", .strings many)]

mutual

/-- The notation of a type expression. -/
def toCwl : TypeExpr → Value
  | named name => .string name
  | array (named name) => .string (name ++ "[]")
  | array items => .mapping [("type", .string "array"), ("items", toCwl items)]
  | union [first, t] =>
      if first.isNull then optionalToCwl (toCwl t) else .sequence [toCwl first, toCwl t]
  | union members => .sequence (toCwlAll members)
  | record name fields =>
      .mapping [("type", .string "record"), ("name", .string name),
        ("fields", .sequence (fieldsToCwl fields))]
  | enum name symbols =>
      .mapping [("type", .string "enum"), ("name", .string name), ("symbols", .strings symbols)]

/-- The notations of the members of a union. -/
def toCwlAll : List TypeExpr → List Value
  | [] => []
  | t :: rest => toCwl t :: toCwlAll rest

/-- The notations of the fields of a record. -/
def fieldsToCwl : List (FieldOf TypeExpr) → List Value
  | [] => []
  | f :: rest =>
      .mapping ([("name", .string f.name), ("type", toCwl f.type)] ++ docToCwl f.doc ++
        (match f.default with
          | some v => [("default", v)]
          | none => [])) :: fieldsToCwl rest

end

end TypeExpr

end CanonicalCwl
