import CanonicalCwl.Process.Basic
import CanonicalCwl.TypeExpr.Tree

/-!
# Parts of a Process as Trees

The canonical tree of data, bindings and parameters, and the part that a canonical tree stands
for. Reading goes in two steps: `Shape.read` brings a tree into canonical form or refuses it,
and the `ofTree` functions take the canonical form apart.
-/

namespace CanonicalCwl

open Entries

/-! ## Data -/

namespace DataValue

/-- The tree of a data value, tagged by its kind. -/
def toTree : DataValue → Value
  | string s => .tagged "string_value" (.string s)
  | struct entries => .tagged "struct_value" (.mapping entries)
  | float x => .tagged "float_value" (.float x)
  | int i => .tagged "int_value" (.int i)
  | list items => .tagged "list_value" (.sequence items)
  | bool b => .tagged "bool_value" (.bool b)

/-- The data value of a canonical tree. -/
def ofTree : Value → DataValue
  | .mapping [("string_value", .string s)] => string s
  | .mapping [("struct_value", .mapping entries)] => struct entries
  | .mapping [("float_value", .float x)] => float x
  | .mapping [("int_value", .int i)] => int i
  | .mapping [("list_value", .sequence items)] => list items
  | .mapping [("bool_value", .bool b)] => bool b
  | _ => bool false

/-- Read any tree as a data value. -/
def decode (v : Value) : Except Mismatch DataValue := ((Shape.choice .data).read v).map ofTree

/-- The plain tree of a data value, without its tag. -/
def toValue : DataValue → Value
  | string s => .string s
  | struct entries => .mapping entries
  | float x => .float x
  | int i => .int i
  | list items => .sequence items
  | bool b => .bool b

end DataValue

/-! ## Bindings and parameters -/

namespace CommandLineBinding

/-- The tree of a binding. -/
def toTree (b : CommandLineBinding) : Value :=
  .mapping (
    optional "position" (b.position.map .int) ++
    optionalText "prefix" b.optionPrefix ++
    optionalFlag "separate" b.separate ++
    optionalText "itemSeparator" b.itemSeparator ++
    optionalText "valueFrom" b.valueFrom ++
    optionalFlag "shellQuote" b.shellQuote ++
    optionalFlag "loadContents" b.loadContents)

/-- The binding of a canonical tree. -/
def ofTree (v : Value) : CommandLineBinding where
  position := v.intAt "position"
  optionPrefix := v.text? "prefix"
  separate := v.flagAt "separate"
  itemSeparator := v.text? "itemSeparator"
  valueFrom := v.text? "valueFrom"
  shellQuote := v.flagAt "shellQuote"
  loadContents := v.flagAt "loadContents"

end CommandLineBinding

namespace OutputBinding

/-- The tree of a binding. -/
def toTree (b : OutputBinding) : Value :=
  .mapping (
    listedTexts "glob" b.glob ++
    optionalFlag "loadContents" b.loadContents ++
    optionalText "outputEval" b.outputEval)

/-- The binding of a canonical tree. -/
def ofTree (v : Value) : OutputBinding where
  glob := v.stringsAt "glob"
  loadContents := v.flagAt "loadContents"
  outputEval := v.text? "outputEval"

end OutputBinding

namespace InputParameter

/-- The entries of a parameter. -/
def entries (p : InputParameter) : Mapping :=
  optionalText "id" p.id ++
  optionalText "label" p.label ++
  listedTexts "doc" p.doc ++
  optional "type" (p.type.map TypeExpr.toTree) ++
  optional "default" (p.default.map DataValue.toTree) ++
  optional "inputBinding" (p.inputBinding.map CommandLineBinding.toTree) ++
  optionalFlag "streamable" p.streamable ++
  optional "format" p.format ++
  optional "secondaryFiles" p.secondaryFiles

/-- The tree of a parameter. -/
def toTree (p : InputParameter) : Value := .mapping p.entries

/-- The parameter of a canonical tree. -/
def ofTree (v : Value) : InputParameter where
  id := v.text? "id"
  label := v.text? "label"
  doc := v.stringsAt "doc"
  type := (v.get? "type").map TypeExpr.ofTree
  default := (v.get? "default").map DataValue.ofTree
  inputBinding := (v.get? "inputBinding").map CommandLineBinding.ofTree
  streamable := v.flagAt "streamable"
  format := v.get? "format"
  secondaryFiles := v.get? "secondaryFiles"

end InputParameter

namespace OutputParameter

/-- The entries of a parameter. -/
def entries (p : OutputParameter) : Mapping :=
  optionalText "id" p.id ++
  optionalText "label" p.label ++
  listedTexts "doc" p.doc ++
  optional "type" (p.type.map TypeExpr.toTree) ++
  optional "outputBinding" (p.outputBinding.map OutputBinding.toTree) ++
  listedTexts "outputSource" p.outputSource ++
  optionalText "linkMerge" p.linkMerge ++
  optionalFlag "streamable" p.streamable ++
  optional "format" p.format ++
  optional "secondaryFiles" p.secondaryFiles

/-- The tree of a parameter. -/
def toTree (p : OutputParameter) : Value := .mapping p.entries

/-- The parameter of a canonical tree. -/
def ofTree (v : Value) : OutputParameter where
  id := v.text? "id"
  label := v.text? "label"
  doc := v.stringsAt "doc"
  type := (v.get? "type").map TypeExpr.ofTree
  outputBinding := (v.get? "outputBinding").map OutputBinding.ofTree
  outputSource := v.stringsAt "outputSource"
  linkMerge := v.text? "linkMerge"
  streamable := v.flagAt "streamable"
  format := v.get? "format"
  secondaryFiles := v.get? "secondaryFiles"

end OutputParameter

namespace StepInput

/-- The tree of a step input. -/
def toTree (i : StepInput) : Value :=
  .mapping (
    optionalText "id" i.id ++
    listedTexts "source" i.source ++
    optionalText "linkMerge" i.linkMerge ++
    optional "default" i.default ++
    optionalText "valueFrom" i.valueFrom)

/-- The step input of a canonical tree. -/
def ofTree (v : Value) : StepInput where
  id := v.text? "id"
  source := v.stringsAt "source"
  linkMerge := v.text? "linkMerge"
  default := v.get? "default"
  valueFrom := v.text? "valueFrom"

end StepInput

namespace StepOutput

/-- The tree of a step output. -/
def toTree (o : StepOutput) : Value := .mapping [("id", .string o.id)]

/-- The step output of a canonical tree. -/
def ofTree (v : Value) : StepOutput where
  id := (v.text? "id").getD ""

end StepOutput

end CanonicalCwl
