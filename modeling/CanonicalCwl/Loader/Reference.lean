import CanonicalCwl.Loader.Outcome
import CanonicalCwl.Process.Basic

/-!
# References of Steps

A step may run a path: `#name` is a member of the bundle that the workflow is in, and anything
else is a file. Following the references replaces such a path by the process it stands for.

- `Run.followIn` follows the references of a process by a rule for single references.
- `Reference.follow` is that rule: a member of the bundle is put in with its own references
  followed, unless the step is already inside a workflow of that name.
-/

namespace CanonicalCwl

/-! ## The references of a process -/

namespace Run

mutual

/-- Follow the reference of a step, or those inside its process. `follow` finds the process
that a reference stands for; a reference that stands for none is reported and stays. -/
def followRun (follow : String → Outcome (Option Process)) (workflow step : Option String) :
    Run → Outcome Run
  | path target => do
      match ← follow target with
      | some p => return inline p
      | none => do
          Outcome.report ⟨workflow, step, target⟩
          return path target
  | inline p => do return inline (← followIn follow p)

/-- Follow the references of a process, in the order of its steps. -/
def followIn (follow : String → Outcome (Option Process)) : ProcessOf Run → Outcome Process
  | .commandLineTool t => return .commandLineTool t
  | .expressionTool t => return .expressionTool t
  | .workflow w => do
      return .workflow { w with steps := ← followSteps follow w.id w.steps }

/-- Follow the references of the steps of a workflow. -/
def followSteps (follow : String → Outcome (Option Process)) (workflow : Option String) :
    List (StepOf Run) → Outcome (List Step)
  | [] => return []
  | s :: rest => do
      let run ← followRun follow workflow s.id s.run
      return { s with run } :: (← followSteps follow workflow rest)

end

end Run

namespace Reference

/-- Whether a reference is to a member of the bundle. -/
def isLocal (target : String) : Bool := target.toList.head? == some '#'

/-- Split a reference to a file at its first mark: the file, and the member that is meant. -/
def split (target : String) : String × Option String :=
  let file := target.toList.takeWhile (· != '#')
  (String.ofList file,
    if file.length = target.toList.length then none
    else some (String.ofList (target.toList.drop (file.length + 1))))

/-- Follow one reference. `external` finds the process of a file, `seen` are the names of the
workflows that the step is inside of, and `room` is how many more of them there can be: every
one is the name of a member. -/
def follow (external : String → Outcome Process) (bundle : List Process) :
    Nat → List String → String → Outcome (Option Process)
  | room, seen, target =>
      if isLocal target then
        match findMember bundle target with
        | none => return none
        | some (.workflow w) =>
            -- A workflow cannot be put into itself; only workflows have steps to follow.
            if memberName target ∈ seen then return none
            else
              match room with
              | 0 => return none
              | room + 1 => do
                  let followed ←
                    Run.followIn (follow external bundle room (memberName target :: seen))
                      (.workflow w)
                  return some followed
        | some tool => return some tool
      else do return some (← external target)

/-- Follow the references of a member of a bundle. -/
def followMember (external : String → Outcome Process) (bundle : List Process) (p : Process) :
    Outcome Process :=
  Run.followIn (follow external bundle bundle.length (p.id?.map memberName).toList) p

/-- Pick one process out of a document: the named member, else the member called `main`, else
the only one. A single process is picked whatever is named. -/
def select (doc : Document) (fragment : Option String) (path : String) :
    Except LoadError Process :=
  match doc with
  | .process p => .ok p
  | .graph g =>
      let picked := match fragment with
        | some name => g.find? name
        | none =>
            (g.find? "main").or (match g.members with
              | [only] => some only
              | _ => none)
      match picked with
      | some p => .ok p
      | none => .error (.ambiguousGraph path fragment)

end Reference

end CanonicalCwl
