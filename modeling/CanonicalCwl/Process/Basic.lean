import CanonicalCwl.TypeExpr.Basic

/-!
# Canonical Processes

The strictly typed model of a document. Every ambiguity of the input format is gone:
parameters and steps are ordered lists, documentation and sources are lists of texts, types
are type expressions, defaults are discriminated data, and a step runs either a path or an
inline process.

Steps, workflows and processes are written over the kind of thing a step runs, so that
`Run`, which closes the circle, is an ordinary inductive type with `Process`, `Workflow` and
`Step` as its instances.

- `Run.beq_iff_eq`: the structural test `Run.beq` decides equality of runs, and with it of
  processes and documents.
-/

namespace CanonicalCwl

/-- The class of a process. -/
inductive ClassTag where
  | commandLineTool
  | expressionTool
  | workflow
  deriving DecidableEq, Repr

/-- A data value with its kind, used for the defaults of parameters. -/
inductive DataValue where
  | string (s : String)
  | struct (entries : Mapping)
  | float (x : Binary64)
  | int (i : Int64)
  | list (items : List Value)
  | bool (b : Bool)
  deriving DecidableEq

/-! ## Parameters and bindings -/

/-- How a value is put on the command line. -/
structure CommandLineBinding where
  position : Option Int64
  /-- The text written in front of the value. -/
  optionPrefix : Option String
  separate : Option Bool
  itemSeparator : Option String
  valueFrom : Option String
  shellQuote : Option Bool
  loadContents : Option Bool
  deriving DecidableEq

/-- How an output is collected. -/
structure OutputBinding where
  glob : List String
  loadContents : Option Bool
  outputEval : Option String
  deriving DecidableEq

/-- An input parameter of a process. -/
structure InputParameter where
  id : Option String
  label : Option String
  doc : List String
  type : Option TypeExpr
  default : Option DataValue
  inputBinding : Option CommandLineBinding
  streamable : Option Bool
  format : Option Value
  secondaryFiles : Option Value
  deriving DecidableEq

/-- An output parameter of a process. -/
structure OutputParameter where
  id : Option String
  label : Option String
  doc : List String
  type : Option TypeExpr
  outputBinding : Option OutputBinding
  outputSource : List String
  linkMerge : Option String
  streamable : Option Bool
  format : Option Value
  secondaryFiles : Option Value
  deriving DecidableEq

/-! ## Processes -/

/-- What processes of every class have. -/
structure Header where
  id : Option String
  /-- The class as written; the process itself is classified by its constructor. -/
  className : Option String
  cwlVersion : Option String
  label : Option String
  doc : List String
  inputs : List InputParameter
  outputs : List OutputParameter
  requirements : List Mapping
  hints : List Mapping
  namespaces : Option Value
  schemas : Option Value
  deriving DecidableEq

/-- A process that runs a command. -/
structure CommandLineTool extends Header where
  baseCommand : List String
  arguments : List CommandLineBinding
  stdin : Option String
  stdout : Option String
  stderr : Option String
  successCodes : List Int64
  temporaryFailCodes : List Int64
  permanentFailCodes : List Int64
  deriving DecidableEq

/-- A process that evaluates an expression. -/
structure ExpressionTool extends Header where
  expression : String
  deriving DecidableEq

/-- An input of a step. -/
structure StepInput where
  id : Option String
  source : List String
  linkMerge : Option String
  default : Option Value
  valueFrom : Option String
  deriving DecidableEq

/-- An output of a step. -/
structure StepOutput where
  id : String
  deriving DecidableEq

/-- A step of a workflow, over what it runs. -/
structure StepOf (ρ : Type) where
  id : Option String
  label : Option String
  doc : List String
  inputs : List StepInput
  outputs : List StepOutput
  run : ρ
  requirements : List Mapping
  hints : List Mapping
  scatter : List String
  scatterMethod : Option String
  deriving DecidableEq

/-- A process made of steps, over what they run. -/
structure WorkflowOf (ρ : Type) extends Header where
  steps : List (StepOf ρ)
  deriving DecidableEq

/-- A process of any class, over what its steps run. -/
inductive ProcessOf (ρ : Type) where
  | commandLineTool (tool : CommandLineTool)
  | expressionTool (tool : ExpressionTool)
  | workflow (workflow : WorkflowOf ρ)
  deriving DecidableEq

/-- What a step runs: a file or a bundle member by its path, or a process in place. -/
inductive Run where
  | path (target : String)
  | inline (process : ProcessOf Run)

/-- A process. -/
abbrev Process := ProcessOf Run

/-- A workflow. -/
abbrev Workflow := WorkflowOf Run

/-- A step of a workflow. -/
abbrev Step := StepOf Run

/-- A bundle of processes. -/
structure Graph where
  cwlVersion : Option String
  members : List Process

/-- A canonical document: one process or a bundle. -/
inductive Document where
  | process (process : Process)
  | graph (graph : Graph)

/-! ## Equality -/

namespace Run

mutual

/-- Structural equality of two runs. -/
def beq : Run → Run → Bool
  | path a, path b => a == b
  | inline p, inline q => beqProcess p q
  | _, _ => false

/-- Structural equality of two processes. -/
def beqProcess : ProcessOf Run → ProcessOf Run → Bool
  | .commandLineTool a, .commandLineTool b => a == b
  | .expressionTool a, .expressionTool b => a == b
  | .workflow v, .workflow w => v.toHeader == w.toHeader && beqSteps v.steps w.steps
  | _, _ => false

/-- Structural equality of two lists of steps. -/
def beqSteps : List (StepOf Run) → List (StepOf Run) → Bool
  | [], [] => true
  | s :: ss, t :: ts =>
      beq s.run t.run && { s with run := () } == { t with run := () } && beqSteps ss ts
  | _, _ => false

end

/-- A step is its other fields and its run. -/
private theorem step_eq_iff (s t : StepOf Run) :
    (s.run = t.run ∧ ({ s with run := () } : StepOf Unit) = { t with run := () }) ↔ s = t := by
  obtain ⟨⟩ := s
  obtain ⟨⟩ := t
  simp only [StepOf.mk.injEq]
  constructor
  · rintro ⟨rfl, h⟩
    simp_all
  · intro h
    simp_all

/-- A workflow is its header and its steps. -/
private theorem workflow_eq_iff (v w : WorkflowOf Run) :
    (v.toHeader = w.toHeader ∧ v.steps = w.steps) ↔ v = w := by
  obtain ⟨⟩ := v
  obtain ⟨⟩ := w
  simp

mutual

/-- The structural test decides equality of runs. -/
theorem beq_iff_eq : ∀ a b : Run, beq a b = true ↔ a = b
  | path _, b => by cases b <;> simp [beq]
  | inline p, b => by cases b <;> simp [beq, beqProcess_iff_eq p]

/-- The structural test decides equality of processes. -/
theorem beqProcess_iff_eq : ∀ p q : ProcessOf Run, beqProcess p q = true ↔ p = q
  | .commandLineTool _, q => by cases q <;> simp [beqProcess]
  | .expressionTool _, q => by cases q <;> simp [beqProcess]
  | .workflow v, q => by
      cases q <;> simp [beqProcess, beqSteps_iff_eq v.steps, workflow_eq_iff]

/-- The structural test decides equality of lists of steps. -/
theorem beqSteps_iff_eq : ∀ ss ts : List (StepOf Run), beqSteps ss ts = true ↔ ss = ts
  | [], ts => by cases ts <;> simp [beqSteps]
  | s :: ss, ts => by
      cases ts <;>
        simp [beqSteps, beq_iff_eq s.run, beqSteps_iff_eq ss, ← step_eq_iff]

end

instance : DecidableEq Run := fun a b => decidable_of_iff _ (beq_iff_eq a b)

end Run

deriving instance DecidableEq for Graph, Document

/-! ## Views -/

namespace ProcessOf

variable {ρ : Type}

/-- The class of a process. -/
def classTag : ProcessOf ρ → ClassTag
  | commandLineTool _ => .commandLineTool
  | expressionTool _ => .expressionTool
  | workflow _ => .workflow

/-- What the process has in common with every other. -/
def header : ProcessOf ρ → Header
  | commandLineTool t => t.toHeader
  | expressionTool t => t.toHeader
  | workflow w => w.toHeader

/-- The id of a process. -/
def id? (p : ProcessOf ρ) : Option String := p.header.id

/-- The workflow, if the process is one. -/
def workflow? : ProcessOf ρ → Option (WorkflowOf ρ)
  | workflow w => some w
  | _ => none

end ProcessOf

namespace Run

/-- The path, if the run is one. -/
def path? : Run → Option String
  | path target => some target
  | inline _ => none

/-- The inline process, if the run is one. -/
def process? : Run → Option Process
  | path _ => none
  | inline p => some p

end Run

/-- The name of a bundle member in a reference: without the leading marks. -/
def memberName (id : String) : String := String.ofList (id.toList.dropWhile (· == '#'))

/-- The first process whose id, without leading marks, is the given name, equally trimmed. -/
def findMember (members : List Process) (name : String) : Option Process :=
  members.find? fun p => p.id?.map memberName == some (memberName name)

/-- The first member of a bundle with the given name. -/
def Graph.find? (g : Graph) (name : String) : Option Process := findMember g.members name

end CanonicalCwl
