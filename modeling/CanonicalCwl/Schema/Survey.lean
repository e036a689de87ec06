import CanonicalCwl.Schema.Inline
import CanonicalCwl.TypeExpr.Notation

/-!
# Surveying Schema Nodes

A schema description is a list of nodes. Each node, on its own, amounts to a definition with
the definitions written inside it, or to diagnostics, or to both: a record keeps its good
fields. A survey collects what the nodes of a list amount to. A later declaration replaces an
earlier one of its name; a definition written in place never replaces another.

- `Node.read` tells what a node amounts to.
- `Survey.ofNodes` collects.
-/

namespace CanonicalCwl.Schema

/-- What a schema node amounts to. -/
structure Node where
  diagnostics : List Diagnostic
  /-- The definitions written in place, inner ones first. -/
  inline : List Definition
  /-- The definition that the node declares; none if it is refused. -/
  declared : Option Definition

namespace Node

/-- A node that is refused. -/
def refused (d : Diagnostic) : Node := ⟨[d], [], none⟩

/-- The place that diagnostics name when a node has no name. -/
def topLevel : String := "<top level>"

/-- The names of the parents that a record gives, without their namespaces. -/
def parents : Option Value → List String
  | some (.string s) => [localName s]
  | some (.sequence items) => (items.filterMap Value.string?).map localName
  | _ => []

/-- The record node with the given entries and local name. -/
def readRecord (entries : Mapping) (name : String) : Node :=
  let outcomes := TypeExpr.fieldsUnder name entries
  let fields := outcomes.filterMap Except.toOption
  { diagnostics := outcomes.filterMap fun o =>
      match o with
      | .error d => some d
      | .ok _ => none
    inline := TypeExpr.inlineFields fields
    declared := some (.record
      { name, fields := fields.map TypeExpr.liftedField,
        parents := parents (Entries.get? entries "extends"),
        doc := docTexts (Entries.get? entries "doc") }) }

/-- The enumeration node with the given entries and local name. -/
def readEnum (entries : Mapping) (name : String) : Node :=
  match allStrings? (Entries.get? entries "symbols") with
  | some symbols =>
      ⟨[], [], some (.enum ⟨name, symbols, docTexts (Entries.get? entries "doc")⟩)⟩
  | none => refused (TypeExpr.unrecognized name (.mapping entries))

/-- What a node amounts to. -/
def read (node : Value) : Node :=
  let name := node.text? "name"
  match node, node.text? "type", name.map localName with
  | .mapping entries, some "record", some name => readRecord entries name
  | _, some "record", none => refused (.missingName topLevel "record")
  | .mapping entries, some "enum", some name => readEnum entries name
  | _, some "enum", none => refused (.missingName topLevel "enum")
  | _, _, _ => refused (TypeExpr.unrecognized (name.getD topLevel) node)

end Node

/-- What the nodes read so far amount to. -/
structure Survey where
  registry : Registry
  diagnostics : List Diagnostic

namespace Survey

/-- Nothing has been read. -/
def empty : Survey := ⟨[], []⟩

/-- Add one node. The definitions written in place come before the declared one. -/
def add (s : Survey) (n : Node) : Survey :=
  let registry := n.inline.foldl Registry.declareNew s.registry
  { registry := match n.declared with
      | some d => registry.declare d
      | none => registry
    diagnostics := s.diagnostics ++ n.diagnostics }

/-- Read one more node. -/
def observe (s : Survey) (node : Value) : Survey := s.add (Node.read node)

/-- Read a list of nodes. -/
def ofNodes (nodes : List Value) : Survey := nodes.foldl observe empty

end Survey

/-- The nodes of a schema description: a bare list, the list under `$graph`, or one node. -/
def nodesOf : Value → List Value
  | .sequence items => items
  | .mapping entries =>
      match Entries.get? entries "$graph" with
      | some (.sequence items) => items
      | _ => [.mapping entries]
  | _ => []

end CanonicalCwl.Schema
