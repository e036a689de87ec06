import CanonicalCwl.Process.ClassTag
import CanonicalCwl.Process.Tree
import CanonicalCwl.TypeExpr.Notation

/-!
# Canonical Documents Written as CWL

The way back from a canonical document to a raw one: types return to their notation, defaults
lose their tag, a run is a path or an inline process, a class stands first, and documentation
of one paragraph is a text. Lists stay lists, which are allowed wherever a map is.
-/

namespace CanonicalCwl

namespace Cwl

/-- Documentation of one paragraph as a text. -/
def unwrapDoc : Value → Value
  | .sequence [.string s] => .string s
  | v => v

/-- A process in the raw form: its class stands first, and its parameters, which only a
process that has some writes, are the given ones. -/
def process (tag : ClassTag) (inputs outputs : List Value) (entries : Mapping) : Value :=
  let entries := Entries.erase entries "class"
  let entries := Entries.modify entries "doc" unwrapDoc
  let entries := Entries.modify entries "inputs" fun _ => .sequence inputs
  let entries := Entries.modify entries "outputs" fun _ => .sequence outputs
  .mapping (("class", .string tag.name) :: entries)

end Cwl

/-- An input parameter in the raw form. -/
def InputParameter.toCwl (p : InputParameter) : Value :=
  let entries := Entries.modify p.entries "doc" Cwl.unwrapDoc
  let entries := Entries.modify entries "type" fun v => (p.type.map TypeExpr.toCwl).getD v
  .mapping (Entries.modify entries "default" fun v => (p.default.map DataValue.toValue).getD v)

/-- An output parameter in the raw form. -/
def OutputParameter.toCwl (p : OutputParameter) : Value :=
  let entries := Entries.modify p.entries "doc" Cwl.unwrapDoc
  .mapping (Entries.modify entries "type" fun v => (p.type.map TypeExpr.toCwl).getD v)

/-- A process in the raw form, from its header and its other entries in that form. -/
def Header.toCwl (tag : ClassTag) (h : Header) (entries : Mapping) : Value :=
  Cwl.process tag (h.inputs.map InputParameter.toCwl) (h.outputs.map OutputParameter.toCwl) entries

namespace Run

mutual

/-- What a step runs, in the raw form. -/
def toCwl : Run → Value
  | path target => .string target
  | inline p => processToCwl p

/-- A process in the raw form. -/
def processToCwl : ProcessOf Run → Value
  | .commandLineTool t => t.toHeader.toCwl .commandLineTool t.entries
  | .expressionTool t => t.toHeader.toCwl .expressionTool t.entries
  | .workflow w => w.toHeader.toCwl .workflow (w.entriesWith (stepsToCwl w.steps))

/-- The steps of a workflow in the raw form. -/
def stepsToCwl : List (StepOf Run) → List Value
  | [] => []
  | s :: rest =>
      .mapping (Entries.modify (s.entriesWith (toCwl s.run)) "doc" Cwl.unwrapDoc) ::
        stepsToCwl rest

end

end Run

/-- A process in the raw form. -/
def ProcessOf.toCwl (p : Process) : Value := Run.processToCwl p

/-- A document in the raw form. -/
def Document.toCwl : Document → Value
  | .process p => p.toCwl
  | .graph g =>
      .mapping (Entries.optionalText "cwlVersion" g.cwlVersion ++
        [("$graph", .sequence (g.members.map ProcessOf.toCwl))])

end CanonicalCwl
