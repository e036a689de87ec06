import CanonicalCwl.LoadError
import CanonicalCwl.Proofs.Process.Written
import CanonicalCwl.Proofs.Shape.FirstFault
import CanonicalCwl.Proofs.Shape.Stable
import CanonicalCwl.Proofs.Shape.Tidy

/-!
# Typed Reading Keeps Everything

A tree can be read as any of the types of the canonical form. Whatever is read is written again
as it was: keys are neither lost nor invented, and values are not changed. What has been written is
read as the same value, even if the first tree had its fields by position. A tree that does not fit
is given back with its first fault.

- `Target.alike_of_decode`: what is read from a tree is written as the tidy tree.
- `Target.decode_toTree_of_decode`: what is read is written as a tree that is read as the same.
- `Target.firstFault_of_decode`: a failed reading reports the first fault of the tree.
-/

namespace CanonicalCwl

open Result

/-- The types that a tree can be read as. -/
inductive Target where
  | commandLineTool
  | expressionTool
  | workflow
  | graph
  /-- A process of any class, tagged by its class. -/
  | process
  /-- What a step runs. -/
  | run
  | data
  | type
  | inputParameter
  | outputParameter
  | commandLineBinding
  | outputBinding
  | step
  | stepInput
  | stepOutput

namespace Target

/-- What a tree of the type may hold. -/
def shape : Target → Shape
  | commandLineTool => .record .commandLineTool
  | expressionTool => .record .expressionTool
  | workflow => .record .workflow
  | graph => .record .graph
  | process => .choice .process
  | run => .choice .run
  | data => .choice .data
  | type => .choice .type
  | inputParameter => .record .inputParameter
  | outputParameter => .record .outputParameter
  | commandLineBinding => .record .commandLineBinding
  | outputBinding => .record .outputBinding
  | step => .record .step
  | stepInput => .record .stepInput
  | stepOutput => .record .stepOutput

/-- The typed values. -/
def Carrier : Target → Type
  | commandLineTool => CommandLineTool
  | expressionTool => ExpressionTool
  | workflow => Workflow
  | graph => Graph
  | process => Process
  | run => Run
  | data => DataValue
  | type => TypeExpr
  | inputParameter => InputParameter
  | outputParameter => OutputParameter
  | commandLineBinding => CommandLineBinding
  | outputBinding => OutputBinding
  | step => Step
  | stepInput => StepInput
  | stepOutput => StepOutput

/-- Read any tree as a value of the type. -/
def decode : (t : Target) → Value → Except Mismatch t.Carrier
  | commandLineTool => CommandLineTool.decode
  | expressionTool => ExpressionTool.decode
  | workflow => WorkflowOf.decode
  | graph => Graph.decode
  | process => ProcessOf.decodeTagged
  | run => Run.decode
  | data => DataValue.decode
  | type => TypeExpr.decode
  | inputParameter => fun v => ((Shape.record .inputParameter).read v).map InputParameter.ofTree
  | outputParameter => fun v => ((Shape.record .outputParameter).read v).map OutputParameter.ofTree
  | commandLineBinding => fun v =>
      ((Shape.record .commandLineBinding).read v).map CommandLineBinding.ofTree
  | outputBinding => fun v => ((Shape.record .outputBinding).read v).map OutputBinding.ofTree
  | step => fun v => ((Shape.record .step).read v).map StepOf.ofTree
  | stepInput => fun v => ((Shape.record .stepInput).read v).map StepInput.ofTree
  | stepOutput => fun v => ((Shape.record .stepOutput).read v).map StepOutput.ofTree

/-- The tree of a value of the type. -/
def toTree : (t : Target) → t.Carrier → Value
  | commandLineTool => CommandLineTool.toTree
  | expressionTool => ExpressionTool.toTree
  | workflow => WorkflowOf.toTree
  | graph => Graph.toTree
  | process => ProcessOf.toTaggedTree
  | run => Run.toTree
  | data => DataValue.toTree
  | type => TypeExpr.toTree
  | inputParameter => InputParameter.toTree
  | outputParameter => OutputParameter.toTree
  | commandLineBinding => CommandLineBinding.toTree
  | outputBinding => OutputBinding.toTree
  | step => StepOf.toTree
  | stepInput => StepInput.toTree
  | stepOutput => StepOutput.toTree

/-- The value of the type that a canonical tree stands for. -/
def ofTree : (t : Target) → Value → t.Carrier
  | commandLineTool => CommandLineTool.ofTree
  | expressionTool => ExpressionTool.ofTree
  | workflow => WorkflowOf.ofTree
  | graph => Graph.ofTree
  | process => ProcessOf.ofTaggedTree
  | run => Run.ofTree
  | data => DataValue.ofTree
  | type => TypeExpr.ofTree
  | inputParameter => InputParameter.ofTree
  | outputParameter => OutputParameter.ofTree
  | commandLineBinding => CommandLineBinding.ofTree
  | outputBinding => OutputBinding.ofTree
  | step => StepOf.ofTree
  | stepInput => StepInput.ofTree
  | stepOutput => StepOutput.ofTree

/-- A tree is put in canonical form, and stands for a value then. -/
theorem decode_eq (t : Target) (v : Value) : t.decode v = (t.shape.read v).map t.ofTree := by
  cases t <;> rfl

/-- A canonical tree is the tree of what it stands for. -/
theorem toTree_ofTree (t : Target) {v w : Value} (h : t.shape.read v = .ok w) :
    t.toTree (t.ofTree w) = w := by
  cases t with
  | commandLineTool => exact CommandLineTool.toTree_ofTree h
  | expressionTool => exact ExpressionTool.toTree_ofTree h
  | workflow => exact WorkflowOf.toTree_ofTree h
  | graph => exact Graph.toTree_ofTree h
  | process => exact ProcessOf.toTaggedTree_ofTaggedTree h
  | run => exact Run.toTree_ofTree h
  | data => exact DataValue.toTree_ofTree h
  | type => exact TypeExpr.toTree_ofTree _ h
  | inputParameter => exact InputParameter.toTree_ofTree h
  | outputParameter => exact OutputParameter.toTree_ofTree h
  | commandLineBinding => exact CommandLineBinding.toTree_ofTree h
  | outputBinding => exact OutputBinding.toTree_ofTree h
  | step => exact StepOf.toTree_ofTree h
  | stepInput => exact StepInput.toTree_ofTree h
  | stepOutput => exact StepOutput.toTree_ofTree h

/-- What is read from a tree is written as its canonical form. -/
theorem read_of_decode (t : Target) {v : Value} {x : t.Carrier} (h : t.decode v = .ok x) :
    t.shape.read v = .ok (t.toTree x) := by
  rw [decode_eq] at h
  obtain ⟨w, hw, rfl⟩ := map_eq_ok_iff.mp h
  rw [t.toTree_ofTree hw, hw]

/-- What is read from a tree is written as the tidy tree, but for the order of the fields of
records: only null in the place of an absent field and empty lists that need not be written are left
out, only fields that are always written are put in, with their empty defaults, and only integers in
the place of floats are changed. -/
theorem alike_of_decode (t : Target) {v : Value} {x : t.Carrier} (hv : v.WellFormed)
    (hname : t.shape.ByName v) (h : t.decode v = .ok x) :
    t.shape.Alike (t.toTree x) (t.shape.tidy v) :=
  Shape.alike_of_read v hv hname (t.read_of_decode h)

/-- A parameter whose fields stand in another order, one of them with null and one with an empty
list, and whose default is an integer in the place of a float. -/
def looseParameter : Value :=
  .mapping [("default", .tagged "float_value" (.int 3)), ("label", .null), ("id", .string "x"),
    ("doc", .sequence [])]

/-- Of the loose parameter its id and its default are written again. -/
theorem alike_of_decode_looseParameter :
    looseParameter.WellFormed ∧ (shape inputParameter).ByName looseParameter ∧
      ∃ p : InputParameter, decode inputParameter looseParameter = .ok p ∧
        (shape inputParameter).Alike p.toTree
          (.mapping [("default", .tagged "float_value" (.float (Binary64.ofInt 3))),
            ("id", .string "x")]) := by
  have hv : looseParameter.WellFormed := by
    simp [looseParameter, Value.tagged, Value.WellFormed, Value.WellFormedEntries,
      Value.WellFormedItems, Entries.Distinct, Entries.keys]
  have hname : (shape inputParameter).ByName looseParameter := by
    simp [looseParameter, shape, Value.tagged, Shape.ByName, Shape.ByNameEntries,
      Shape.ByNameArms, Shape.ByNameItems, RecordKind.slot?, RecordKind.slots, ChoiceKind.arms,
      Slot.optional, Slot.list, Entries.get?_cons]
  exact ⟨hv, hname, _, rfl, alike_of_decode inputParameter hv hname rfl⟩

/-- Whatever was read from a tree, its own tree is read as the same value. -/
theorem decode_toTree_of_decode (t : Target) {v : Value} {x : t.Carrier} (h : t.decode v = .ok x) :
    t.decode (t.toTree x) = .ok x := by
  rw [decode_eq] at h ⊢
  obtain ⟨w, hw, rfl⟩ := map_eq_ok_iff.mp h
  rw [t.toTree_ofTree hw, Shape.read_eq_self_of_read w hw]
  rfl

/-- A step that has its fields by position, as its input and its output have theirs; it has null in
the place of a label, and no documentation. -/
def positionalStep : Value :=
  .sequence [.string "s", .null, .sequence [],
    .sequence [.sequence [.string "x", .sequence [.string "file"]]],
    .sequence [.sequence [.string "o"]], .tagged "path" (.string "tool.cwl")]

/-- The step is written by the names of its fields, and read as the same step. -/
theorem decode_toTree_of_decode_positionalStep :
    ∃ s : Step, decode step positionalStep = .ok s ∧
      s.toTree = .mapping [("id", .string "s"),
        ("in", .sequence [.mapping [("id", .string "x"), ("source", .strings ["file"])]]),
        ("out", .sequence [.mapping [("id", .string "o")]]),
        ("run", .tagged "path" (.string "tool.cwl"))] ∧
      decode step s.toTree = .ok s := by
  have hread : decode step positionalStep = .ok _ := rfl
  exact ⟨_, hread, rfl, decode_toTree_of_decode step hread⟩

/-- If a tree cannot be read as a value of the type, the failed conversion has the tree as it is,
and the first fault of it: a node of the tree, on the way to which everything was in order. -/
theorem firstFault_of_decode (t : Target) (name : String) {v : Value} {e : LoadError}
    (hv : v.WellFormed) (h : (t.decode v).mapError (LoadError.ofMismatch name v) = .error e) :
    ∃ c, e = .conversion c ∧ c.payload = v ∧ t.shape.FirstFault v c.mismatch := by
  obtain ⟨m, hm, rfl⟩ := mapError_eq_error_iff.mp h
  rw [decode_eq] at hm
  exact ⟨_, rfl, rfl, Shape.firstFault_of_read hv (map_eq_error_iff.mp hm)⟩

/-- A tool whose second input has its fields by position, with a bare arm for its type. -/
def bareTypeTool : Value :=
  .mapping [("id", .string "t"), ("inputs", .sequence [.mapping [("id", .string "x")],
    .sequence [.string "y", .null, .sequence [], .string "name"]]), ("stdin", .int 3)]

/-- The type of the second input is reported, and not the field after the inputs. -/
theorem firstFault_of_decode_bareTypeTool :
    bareTypeTool.WellFormed ∧ ∃ c : Conversion,
      (decode commandLineTool bareTypeTool).mapError
        (LoadError.ofMismatch "CommandLineTool" bareTypeTool) = .error (.conversion c) ∧
      c.mismatch.path = [.key "inputs", .index 1, .index 3, .key "name"] ∧
      c.payload = bareTypeTool ∧ (shape commandLineTool).FirstFault bareTypeTool c.mismatch := by
  have hv : bareTypeTool.WellFormed := by
    simp [bareTypeTool, Value.WellFormed, Value.WellFormedEntries, Value.WellFormedItems,
      Entries.Distinct, Entries.keys]
  have herror : (decode commandLineTool bareTypeTool).mapError
      (LoadError.ofMismatch "CommandLineTool" bareTypeTool) =
        .error (.conversion ⟨"CommandLineTool",
          ⟨[.key "inputs", .index 1, .index 3, .key "name"], .bareArm⟩, bareTypeTool⟩) := rfl
  obtain ⟨c, hc, hpayload, hfault⟩ := firstFault_of_decode commandLineTool _ hv herror
  obtain rfl := LoadError.conversion.inj hc
  exact ⟨hv, _, herror, rfl, hpayload, hfault⟩

end Target

end CanonicalCwl
