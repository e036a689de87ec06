import CanonicalCwl.Process.Part

/-!
# Processes as Trees

The canonical tree of a process, of what a step runs and of a document, and the one that a
canonical tree stands for. A canonical tree is read by its shape first, so that the `ofTree`
functions only take apart what fits.
-/

namespace CanonicalCwl

open Entries

/-! ## Processes -/

namespace Header

/-- The entries a process begins with. -/
def entries (h : Header) : Mapping :=
  optionalText "id" h.id ++
  optionalText "class" h.className ++
  optionalText "cwlVersion" h.cwlVersion ++
  optionalText "label" h.label ++
  listedTexts "doc" h.doc ++
  listed "inputs" (h.inputs.map InputParameter.toTree) ++
  listed "outputs" (h.outputs.map OutputParameter.toTree) ++
  listedMappings "requirements" h.requirements ++
  listedMappings "hints" h.hints

/-- The entries a process ends with. -/
def footer (h : Header) : Mapping :=
  optional "$namespaces" h.namespaces ++
  optional "$schemas" h.schemas

/-- The header of a canonical tree of a process. -/
def ofTree (v : Value) : Header where
  id := v.text? "id"
  className := v.text? "class"
  cwlVersion := v.text? "cwlVersion"
  label := v.text? "label"
  doc := v.stringsAt "doc"
  inputs := (v.itemsAt "inputs").map InputParameter.ofTree
  outputs := (v.itemsAt "outputs").map OutputParameter.ofTree
  requirements := v.mappingsAt "requirements"
  hints := v.mappingsAt "hints"
  namespaces := v.get? "$namespaces"
  schemas := v.get? "$schemas"

end Header

namespace CommandLineTool

/-- The entries of a tool. -/
def entries (t : CommandLineTool) : Mapping :=
  t.toHeader.entries ++
  listedTexts "baseCommand" t.baseCommand ++
  listed "arguments" (t.arguments.map CommandLineBinding.toTree) ++
  optionalText "stdin" t.stdin ++
  optionalText "stdout" t.stdout ++
  optionalText "stderr" t.stderr ++
  listedInts "successCodes" t.successCodes ++
  listedInts "temporaryFailCodes" t.temporaryFailCodes ++
  listedInts "permanentFailCodes" t.permanentFailCodes ++
  t.toHeader.footer

/-- The tree of a tool. -/
def toTree (t : CommandLineTool) : Value := .mapping t.entries

/-- The tool of a canonical tree. -/
def ofTree (v : Value) : CommandLineTool where
  toHeader := Header.ofTree v
  baseCommand := v.stringsAt "baseCommand"
  arguments := (v.itemsAt "arguments").map CommandLineBinding.ofTree
  stdin := v.text? "stdin"
  stdout := v.text? "stdout"
  stderr := v.text? "stderr"
  successCodes := v.intsAt "successCodes"
  temporaryFailCodes := v.intsAt "temporaryFailCodes"
  permanentFailCodes := v.intsAt "permanentFailCodes"

/-- Read any tree as a tool. -/
def decode (v : Value) : Except Mismatch CommandLineTool :=
  ((Shape.record .commandLineTool).read v).map ofTree

end CommandLineTool

namespace ExpressionTool

/-- The entries of a tool. -/
def entries (t : ExpressionTool) : Mapping :=
  t.toHeader.entries ++ [("expression", .string t.expression)] ++ t.toHeader.footer

/-- The tree of a tool. -/
def toTree (t : ExpressionTool) : Value := .mapping t.entries

/-- The tool of a canonical tree. -/
def ofTree (v : Value) : ExpressionTool where
  toHeader := Header.ofTree v
  expression := (v.text? "expression").getD ""

/-- Read any tree as a tool. -/
def decode (v : Value) : Except Mismatch ExpressionTool :=
  ((Shape.record .expressionTool).read v).map ofTree

end ExpressionTool

/-- The entries of a step whose run has the given tree. -/
def StepOf.entriesWith {ρ : Type} (s : StepOf ρ) (run : Value) : Mapping :=
  optionalText "id" s.id ++
  optionalText "label" s.label ++
  listedTexts "doc" s.doc ++
  listed "in" (s.inputs.map StepInput.toTree) ++
  listed "out" (s.outputs.map StepOutput.toTree) ++
  [("run", run)] ++
  listedMappings "requirements" s.requirements ++
  listedMappings "hints" s.hints ++
  listedTexts "scatter" s.scatter ++
  optionalText "scatterMethod" s.scatterMethod

/-- The step of a canonical tree whose run is the given one. -/
def StepOf.ofTreeWith {ρ : Type} (v : Value) (run : ρ) : StepOf ρ where
  id := v.text? "id"
  label := v.text? "label"
  doc := v.stringsAt "doc"
  inputs := (v.itemsAt "in").map StepInput.ofTree
  outputs := (v.itemsAt "out").map StepOutput.ofTree
  run := run
  requirements := v.mappingsAt "requirements"
  hints := v.mappingsAt "hints"
  scatter := v.stringsAt "scatter"
  scatterMethod := v.text? "scatterMethod"

/-- The entries of a workflow whose steps have the given trees. -/
def WorkflowOf.entriesWith {ρ : Type} (w : WorkflowOf ρ) (steps : List Value) : Mapping :=
  w.toHeader.entries ++ listed "steps" steps ++ w.toHeader.footer

namespace ClassTag

/-- The arm a process of the class is tagged with. -/
def arm : ClassTag → String
  | commandLineTool => "commandline"
  | expressionTool => "expression"
  | workflow => "workflow"

end ClassTag

namespace Run

mutual

/-- The tree of a run: a tagged path or a tagged process. -/
def toTree : Run → Value
  | path target => .tagged "path" (.string target)
  | inline p => .tagged p.classTag.arm (processTree p)

/-- The tree of a process, without a tag. -/
def processTree : ProcessOf Run → Value
  | .commandLineTool t => t.toTree
  | .expressionTool t => t.toTree
  | .workflow w => .mapping (w.entriesWith (stepTrees w.steps))

/-- The trees of the steps of a workflow. -/
def stepTrees : List (StepOf Run) → List Value
  | [] => []
  | s :: rest => .mapping (s.entriesWith (toTree s.run)) :: stepTrees rest

end

mutual

/-- The run of a canonical tree. -/
def ofTree : Value → Run
  | .mapping [("path", .string target)] => path target
  | .mapping [("commandline", v)] => inline (.commandLineTool (CommandLineTool.ofTree v))
  | .mapping [("expression", v)] => inline (.expressionTool (ExpressionTool.ofTree v))
  | .mapping [("workflow", .mapping entries)] =>
      inline (.workflow { toHeader := Header.ofTree (.mapping entries), steps := stepsIn entries })
  | _ => path ""

/-- The steps among the canonical entries of a workflow. -/
def stepsIn : List (String × Value) → List (StepOf Run)
  | [] => []
  | (key, v) :: rest => if key = "steps" then stepsOfTree v else stepsIn rest

/-- The steps of a canonical sequence. -/
def stepsOfTree : Value → List (StepOf Run)
  | .sequence items => stepsOfTrees items
  | _ => []

/-- The steps of a list of canonical trees. -/
def stepsOfTrees : List Value → List (StepOf Run)
  | [] => []
  | .mapping entries :: rest =>
      StepOf.ofTreeWith (.mapping entries) (runIn entries) :: stepsOfTrees rest
  | _ :: rest => stepsOfTrees rest

/-- The run among the canonical entries of a step. -/
def runIn : List (String × Value) → Run
  | [] => path ""
  | (key, v) :: rest => if key = "run" then ofTree v else runIn rest

end

/-- Read any tree as a run. -/
def decode (v : Value) : Except Mismatch Run := ((Shape.choice .run).read v).map ofTree

end Run

namespace StepOf

/-- The tree of a step. -/
def toTree (s : Step) : Value := .mapping (s.entriesWith s.run.toTree)

/-- The step of a canonical tree. -/
def ofTree (v : Value) : Step := ofTreeWith v (Run.runIn (v.mapping?.getD []))

end StepOf

namespace WorkflowOf

/-- The tree of a workflow. -/
def toTree (w : Workflow) : Value := .mapping (w.entriesWith (Run.stepTrees w.steps))

/-- The workflow of a canonical tree. -/
def ofTree (v : Value) : Workflow where
  toHeader := Header.ofTree v
  steps := Run.stepsIn (v.mapping?.getD [])

/-- Read any tree as a workflow. -/
def decode (v : Value) : Except Mismatch Workflow :=
  ((Shape.record .workflow).read v).map ofTree

end WorkflowOf

namespace ProcessOf

/-- The tree of a process, without a tag. -/
def toTree (p : Process) : Value := Run.processTree p

/-- The tree of a process, tagged by its class. -/
def toTaggedTree (p : Process) : Value := .tagged p.classTag.arm p.toTree

/-- The process of a canonical tagged tree. -/
def ofTaggedTree (v : Value) : Process :=
  match Run.ofTree v with
  | .inline p => p
  | .path _ => .expressionTool (ExpressionTool.ofTree .null)

/-- Read any tree as a process tagged by its class. -/
def decodeTagged (v : Value) : Except Mismatch Process :=
  ((Shape.choice .process).read v).map ofTaggedTree

/-- Read any tree as a process of a given class. -/
def decode (tag : ClassTag) (v : Value) : Except Mismatch Process :=
  match tag with
  | .commandLineTool => (CommandLineTool.decode v).map .commandLineTool
  | .expressionTool => (ExpressionTool.decode v).map .expressionTool
  | .workflow => (WorkflowOf.decode v).map .workflow

end ProcessOf

/-! ## Documents -/

namespace Graph

/-- The tree of a bundle. -/
def toTree (g : Graph) : Value :=
  .mapping (optionalText "cwlVersion" g.cwlVersion ++
    [("graph", .sequence (g.members.map ProcessOf.toTaggedTree))])

/-- The bundle of a canonical tree. -/
def ofTree (v : Value) : Graph where
  cwlVersion := v.text? "cwlVersion"
  members := (v.itemsAt "graph").map ProcessOf.ofTaggedTree

/-- Read any tree as a bundle. -/
def decode (v : Value) : Except Mismatch Graph := ((Shape.record .graph).read v).map ofTree

end Graph

namespace Document

/-- The tree of a document. A single process is written without a tag: its class is one of its
fields. -/
def toTree : Document → Value
  | process p => p.toTree
  | graph g => g.toTree

end Document

end CanonicalCwl
