import CanonicalCwl.Process.Basic

/-!
# Processes Within a Process

A workflow may run processes in place, which may be workflows again. `ProcessOf.Within` relates
the processes of such a tree to the process at its root, and `Run.mapHeaders` changes the headers
of all of them.

- `ProcessOf.mapHeaders_eq_self`: a change that leaves the header of every process within a
  process as it is leaves the process as it is.
-/

namespace CanonicalCwl

/-- The processes that a process consists of: itself, and those that its steps run in place. -/
inductive ProcessOf.Within : Process → Process → Prop
  | self (p : Process) : Within p p
  | step {p q : Process} {w : Workflow} {s : Step} :
      s ∈ w.steps → s.run = .inline q → Within p q → Within p (.workflow w)

/-- What a step runs in place is smaller than a workflow with this step. -/
theorem WorkflowOf.sizeOf_lt_of_mem_steps {w : Workflow} {s : Step} (hs : s ∈ w.steps)
    {p : Process} (hp : s.run = .inline p) : sizeOf p < sizeOf w := by
  have hstep := List.sizeOf_lt_of_mem hs
  have hrun : sizeOf s.run < sizeOf s := by
    cases s
    simp only [StepOf.mk.sizeOf_spec]
    omega
  have hsteps : sizeOf w.steps < sizeOf w := by
    cases w
    simp only [WorkflowOf.mk.sizeOf_spec]
    omega
  rw [hp, Run.inline.sizeOf_spec] at hrun
  omega

/-- A property of processes holds of all of them if a workflow has it as soon as the processes
that its steps run in place have it. -/
@[elab_as_elim]
theorem ProcessOf.induction {motive : Process → Prop}
    (commandLineTool : ∀ t, motive (.commandLineTool t))
    (expressionTool : ∀ t, motive (.expressionTool t))
    (workflow : ∀ w : Workflow,
      (∀ s ∈ w.steps, ∀ p, s.run = .inline p → motive p) → motive (.workflow w))
    (p : Process) : motive p :=
  match p with
  | .commandLineTool t => commandLineTool t
  | .expressionTool t => expressionTool t
  | .workflow w => workflow w fun _ hs q hq =>
      have := WorkflowOf.sizeOf_lt_of_mem_steps hs hq
      ProcessOf.induction commandLineTool expressionTool workflow q
termination_by sizeOf p
decreasing_by
  simp only [ProcessOf.workflow.sizeOf_spec]
  omega

namespace Run

variable (f : ClassTag → Header → Header)

mutual

/-- Change the headers of the process that is run in place, and of those within it. -/
def mapHeaders : Run → Run
  | path target => path target
  | inline p => inline (mapHeadersProcess p)

/-- Change the headers of a process and of those within it. -/
def mapHeadersProcess : ProcessOf Run → Process
  | .commandLineTool t => .commandLineTool { t with toHeader := f .commandLineTool t.toHeader }
  | .expressionTool t => .expressionTool { t with toHeader := f .expressionTool t.toHeader }
  | .workflow w =>
      .workflow { toHeader := f .workflow w.toHeader, steps := mapHeadersSteps w.steps }

/-- Change the headers of what steps run in place. -/
def mapHeadersSteps : List (StepOf Run) → List Step
  | [] => []
  | s :: rest => { s with run := mapHeaders s.run } :: mapHeadersSteps rest

end

/-- The headers in steps are changed step by step. -/
theorem mapHeadersSteps_eq_map (steps : List Step) :
    mapHeadersSteps f steps = steps.map fun s => { s with run := mapHeaders f s.run } := by
  induction steps with
  | nil => rw [mapHeadersSteps, List.map_nil]
  | cons s rest ih => rw [mapHeadersSteps, List.map_cons, ih]

end Run

namespace ProcessOf

/-- Change the headers of a process and of those within it, each knowing its class. -/
def mapHeaders (f : ClassTag → Header → Header) (p : Process) : Process :=
  Run.mapHeadersProcess f p

/-- A change that leaves every header within a process as it is leaves the process as it is. -/
theorem mapHeaders_eq_self {f : ClassTag → Header → Header} {p : Process}
    (h : ∀ q : Process, q.Within p → f q.classTag q.header = q.header) : p.mapHeaders f = p := by
  induction p using ProcessOf.induction with
  | commandLineTool t =>
    have hself : f .commandLineTool t.toHeader = t.toHeader := h _ (.self _)
    rw [mapHeaders, Run.mapHeadersProcess, hself]
  | expressionTool t =>
    have hself : f .expressionTool t.toHeader = t.toHeader := h _ (.self _)
    rw [mapHeaders, Run.mapHeadersProcess, hself]
  | workflow w ih =>
    have hself : f .workflow w.toHeader = w.toHeader := h _ (.self _)
    have hrun (s : Step) (hs : s ∈ w.steps) : Run.mapHeaders f s.run = s.run := by
      match hr : s.run with
      | .path target => rw [Run.mapHeaders]
      | .inline q =>
        -- The processes within what the step runs are within the workflow.
        have hq : q.mapHeaders f = q := ih s hs q hr fun p hp => h p (.step hs hr hp)
        rw [Run.mapHeaders]
        exact congrArg Run.inline hq
    have hsteps : Run.mapHeadersSteps f w.steps = w.steps := by
      rw [Run.mapHeadersSteps_eq_map]
      refine (List.map_congr_left fun s hs => ?_).trans (List.map_id' _)
      rw [hrun s hs]
    rw [mapHeaders, Run.mapHeadersProcess, hself, hsteps]

/-- A change of the headers keeps the class. -/
@[simp] theorem classTag_mapHeaders (f : ClassTag → Header → Header) (p : Process) :
    (p.mapHeaders f).classTag = p.classTag := by
  cases p <;> rfl

end ProcessOf

end CanonicalCwl
