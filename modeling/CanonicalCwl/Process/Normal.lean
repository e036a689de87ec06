import CanonicalCwl.Process.ClassTag
import CanonicalCwl.Process.Tree
import CanonicalCwl.Rewrite

/-!
# The Normal Form of a Process Document

From a raw document to a canonical process, in two stages. The tree stage boxes the inline
processes that the steps of a workflow run, innermost first, and then rewrites the fields of
the document by tables that depend on its class. The second stage reads the rewritten tree by
its shape, which refuses whatever still does not fit.

The tree stage can only fail on a class: that of the document itself, or that of an inline
process.

- `Normal.tree` is the tree stage.
- `Normal.process` is both stages.
-/

namespace CanonicalCwl.Normal

open Rewrite

/-! ## Tables -/

/-- The fields of a process that may be written as maps keyed by id. -/
def mapFields : ClassTag → List String
  | .workflow => ["inputs", "outputs", "hints", "requirements", "steps"]
  | _ => ["inputs", "outputs", "hints", "requirements"]

/-- The fields of a step that may be written as maps keyed by id, except its inputs. -/
def stepMapFields : List String := ["hints", "requirements"]

/-- The fields that may be written as one value in place of a list. -/
def listFields : List String :=
  ["doc", "baseCommand", "glob", "scatter", "source", "outputSource"]

/-! ## Rewriting one process -/

/-- Rewrite a parameter: its lists, its type, the default of an input, and the lists of the
binding of an output. -/
def parameter (isInput : Bool) : Value → Value :=
  onEntries fun entries =>
    let entries := forceList listFields entries
    let entries := Entries.modify entries "type" tagType
    let entries := if isInput then Entries.modify entries "default" coerceDefault else entries
    Entries.modify entries "outputBinding" (onEntries (forceList listFields))

/-- Rewrite an argument: a text is the binding with that value. -/
def argument : Value → Value
  | .string s => .tagged "valueFrom" (.string s)
  | v => v

/-- Rewrite an output of a step: a text is its id. -/
def stepOutput : Value → Value
  | .string s => .tagged "id" (.string s)
  | v => v

/-- Rewrite the fields of a step, except what it runs. -/
def step : Value → Value :=
  onEntries fun entries =>
    let entries := dictToList stepMapFields "type" entries
    let entries := dictToList ["in"] "source" entries
    let entries := forceList listFields entries
    let entries := Entries.modify entries "in" (onItems (onEntries (forceList listFields)))
    Entries.modify entries "out" (onItems stepOutput)

/-- Rewrite the fields that processes of every class have. -/
def common (tag : ClassTag) (entries : Mapping) : Mapping :=
  let entries := dictToList (mapFields tag) "type" entries
  let entries := forceList listFields entries
  let entries := Entries.modify entries "inputs" (onItems (parameter true))
  Entries.modify entries "outputs" (onItems (parameter false))

/-- Rewrite the fields of a process of a class. -/
def fields (tag : ClassTag) (entries : Mapping) : Mapping :=
  match tag with
  | .commandLineTool => Entries.modify (common tag entries) "arguments" (onItems argument)
  | .expressionTool => common tag entries
  | .workflow => Entries.modify (common tag entries) "steps" (onItems step)

/-! ## Boxing inline processes -/

/-- What a step runs, boxed: a text is a path, and a mapping with a class is an inline process
whose normal tree is given. Anything else is left as it is. -/
def boxRun (run : Value) (normal : Except LoadError Value) : Except LoadError Value :=
  match run with
  | .string target => .ok (.tagged "path" (.string target))
  | .mapping entries =>
      if Entries.contains entries "class" then do
        let tag ← ClassTag.ofDocument run
        return .tagged tag.arm (← normal)
      else .ok run
  | _ => .ok run

mutual

/-- The tree stage: the canonical shape of a raw document. -/
def tree : Value → Except LoadError Value
  | .mapping entries => do
      let tag ← ClassTag.ofDocument (.mapping entries)
      -- Boxing comes first: it needs the raw steps, and nothing after it looks at a run.
      let entries ← if tag = .workflow then boxSteps entries else .ok entries
      return .mapping (fields tag entries)
  | _ => .error .missingClass

/-- Box what the steps of a workflow run. -/
def boxSteps : List (String × Value) → Except LoadError Mapping
  | [] => .ok []
  | (k, v) :: rest => do
      let v ← if k = "steps" then boxStepsOf v else .ok v
      return (k, v) :: (← boxSteps rest)

/-- Box what steps run, in the list or the map form. -/
def boxStepsOf : Value → Except LoadError Value
  | .sequence items => do return .sequence (← boxItems items)
  | .mapping entries => do return .mapping (← boxEntries entries)
  | v => .ok v

/-- Box what listed steps run. -/
def boxItems : List Value → Except LoadError (List Value)
  | [] => .ok []
  | v :: rest => do
      let v ← boxStep v
      return v :: (← boxItems rest)

/-- Box what keyed steps run. -/
def boxEntries : List (String × Value) → Except LoadError Mapping
  | [] => .ok []
  | (k, v) :: rest => do
      let v ← boxStep v
      return (k, v) :: (← boxEntries rest)

/-- Box what one step runs. -/
def boxStep : Value → Except LoadError Value
  | .mapping entries => do return .mapping (← boxField entries)
  | v => .ok v

/-- Box the run among the fields of a step. -/
def boxField : List (String × Value) → Except LoadError Mapping
  | [] => .ok []
  | (k, v) :: rest => do
      let v ← if k = "run" then boxRun v (tree v) else .ok v
      return (k, v) :: (← boxField rest)

end

/-! ## Both stages -/

/-- Read a tree as a process of a class; a mismatch carries the tree. -/
def decode (tag : ClassTag) (v : Value) : Except LoadError Process :=
  (ProcessOf.decode tag v).mapError (LoadError.ofMismatch tag.name v)

/-- The canonical process of a raw document. -/
def process (doc : Value) : Except LoadError Process := do
  let tag ← ClassTag.ofDocument doc
  let normal ← tree doc
  decode tag normal

end CanonicalCwl.Normal
