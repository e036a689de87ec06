import CanonicalCwl.LoadError
import CanonicalCwl.Process.Basic

/-!
# The Class of a Document

Every raw document names the class of its process under `class`.

- `ClassTag.ofName?_name`: the name of a class names that class.
-/

namespace CanonicalCwl.ClassTag

/-- The name of a class. -/
def name : ClassTag → String
  | commandLineTool => "CommandLineTool"
  | expressionTool => "ExpressionTool"
  | workflow => "Workflow"

/-- The class with a name. -/
def ofName? : String → Option ClassTag
  | "CommandLineTool" => some commandLineTool
  | "ExpressionTool" => some expressionTool
  | "Workflow" => some workflow
  | _ => none

/-- The name of a class names that class. -/
@[simp] theorem ofName?_name (c : ClassTag) : ofName? c.name = some c := by
  cases c <;> rfl

/-- The class with a name, or the error that there is none. -/
def parse (s : String) : Except LoadError ClassTag :=
  match ofName? s with
  | some c => .ok c
  | none => .error (.unknownClass s)

/-- The class that a raw document names. An unknown class is a breach of the contract and
carries the document. -/
def ofDocument (doc : Value) : Except LoadError ClassTag :=
  match doc.get? "class" with
  | none => .error .missingClass
  | some v =>
      let written := match v with
        | .string s => s
        | other => "<" ++ other.kind ++ ">"
      match ofName? written with
      | some c => .ok c
      | none =>
          .error (.conversion
            { target := "ProcessClass",
              mismatch := ⟨[.key "class"], .unknownClass written⟩,
              payload := doc })

end CanonicalCwl.ClassTag
