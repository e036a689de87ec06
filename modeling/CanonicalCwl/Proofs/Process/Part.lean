import CanonicalCwl.Process.Part
import CanonicalCwl.Proofs.TypeExpr.Tree

/-!
# Parts of a Process and Their Trees

For data, bindings and parameters: the tree of a part is in canonical form (`read_toTree`) and
stands for the part (`ofTree_toTree`). A field that may hold any tree must not hold null, which
is read as an absent field; `NoNull` says so of a part, and holds of every part that was read
from a tree (`noNull_ofTree`).
-/

namespace CanonicalCwl

open Result Shape

/-! ## Data -/

namespace DataValue

/-- The tree of a data value is in canonical form. -/
theorem read_toTree (d : DataValue) : (Shape.choice .data).read d.toTree = .ok d.toTree := by
  cases d with
  | string s => exact read_tagged rfl (read_text s)
  | struct entries => exact read_tagged rfl (read_mapping entries)
  | float x => exact read_tagged rfl (read_real x)
  | int i => exact read_tagged rfl (read_integer i)
  | list items =>
    have hitems : (Shape.listOf .anything).read (.sequence items) = .ok (.sequence items) :=
      read_listOf_eq_ok_iff.mpr
        ⟨_, _, rfl, rfl, List.forall₂_same.mpr fun v _ => read_anything v⟩
    exact read_tagged rfl hitems
  | bool b => exact read_tagged rfl (read_flag b)

/-- The tree of a data value stands for it. -/
@[simp] theorem ofTree_toTree (d : DataValue) : ofTree d.toTree = d := by
  cases d <;> rfl

end DataValue

/-! ## Bindings -/

namespace CommandLineBinding

/-- The tree of a binding is in canonical form. -/
theorem read_toTree (b : CommandLineBinding) :
    (Shape.record .commandLineBinding).read b.toTree = .ok b.toTree := by
  have hreads := ((((((Reads.optionalInt "position" b.position).append
    (.optionalText "prefix" b.optionPrefix)).append
    (.optionalFlag "separate" b.separate)).append
    (.optionalText "itemSeparator" b.itemSeparator)).append
    (.optionalText "valueFrom" b.valueFrom)).append
    (.optionalFlag "shellQuote" b.shellQuote)).append
    (.optionalFlag "loadContents" b.loadContents)
  exact hreads.read_record (r := .commandLineBinding)

/-- The tree of a binding stands for it. -/
@[simp] theorem ofTree_toTree (b : CommandLineBinding) : ofTree b.toTree = b := by
  simp [ofTree, toTree, Entries.optionalText, Entries.optionalFlag]

end CommandLineBinding

namespace OutputBinding

/-- The tree of a binding is in canonical form. -/
theorem read_toTree (b : OutputBinding) :
    (Shape.record .outputBinding).read b.toTree = .ok b.toTree := by
  have hreads := ((Reads.listedTexts "glob" b.glob).append
    (.optionalFlag "loadContents" b.loadContents)).append
    (.optionalText "outputEval" b.outputEval)
  exact hreads.read_record (r := .outputBinding)

/-- The tree of a binding stands for it. -/
@[simp] theorem ofTree_toTree (b : OutputBinding) : ofTree b.toTree = b := by
  simp [ofTree, toTree, Entries.optionalText, Entries.optionalFlag, Entries.listedTexts]

end OutputBinding

/-! ## Parameters -/

/-- An optional part whose trees are canonical. -/
theorem Shape.Reads.optionalPart {α : Type} (name : String) {shape : Shape} {f : α → Value}
    {x : Option α} (hnull : ∀ a, f a ≠ .null) (h : ∀ a, x = some a → shape.read (f a) = .ok (f a)) :
    Reads [.optional name shape] (Entries.optional name (x.map f))
      (Entries.optional name (x.map f)) := by
  refine .optional name fun v hv => ?_
  obtain ⟨a, ha, rfl⟩ := Option.map_eq_some_iff.mp hv
  exact ⟨hnull a, h a ha⟩

/-- An optional type without null defaults. -/
theorem Shape.Reads.optionalType {t : Option TypeExpr} (h : ∀ a, t = some a → a.NoNull) :
    Reads [.optional "type" (.choice .type)] (Entries.optional "type" (t.map TypeExpr.toTree))
      (Entries.optional "type" (t.map TypeExpr.toTree)) := by
  refine .optionalPart "type" (fun a => ?_) fun a ha => TypeExpr.read_toTree (h a ha)
  -- A type is a tagged tree and never null.
  cases a <;> simp [TypeExpr.toTree, Value.tagged]

namespace InputParameter

/-- No field of the parameter, and none in its type, holds null. -/
structure NoNull (p : InputParameter) : Prop where
  type : ∀ t, p.type = some t → t.NoNull
  format : p.format ≠ some .null
  secondaryFiles : p.secondaryFiles ≠ some .null

/-- The tree of a parameter is in canonical form. -/
theorem read_toTree {p : InputParameter} (h : p.NoNull) :
    (Shape.record .inputParameter).read p.toTree = .ok p.toTree := by
  have hreads := ((((((((Reads.optionalText "id" p.id).append
    (.optionalText "label" p.label)).append
    (.listedTexts "doc" p.doc)).append
    (.optionalType h.type)).append
    (.optionalPart "default" (fun d => by cases d <;> simp [DataValue.toTree, Value.tagged])
      fun d (_ : p.default = some d) => d.read_toTree)).append
    (.optionalPart "inputBinding" (by simp [CommandLineBinding.toTree])
      fun b (_ : p.inputBinding = some b) => b.read_toTree)).append
    (.optionalFlag "streamable" p.streamable)).append
    (.optionalTree "format" h.format)).append
    (.optionalTree "secondaryFiles" h.secondaryFiles)
  exact hreads.read_record (r := .inputParameter)

/-- The tree of a parameter stands for it. -/
@[simp] theorem ofTree_toTree (p : InputParameter) : ofTree p.toTree = p := by
  simp [ofTree, toTree, entries, Entries.optionalText, Entries.optionalFlag, Entries.listedTexts,
    Function.comp_def, TypeExpr.ofTree_toTree]

/-- A parameter that was read from a tree holds no null. -/
theorem noNull_ofTree {v w : Value} (h : (Shape.record .inputParameter).read v = .ok w) :
    (ofTree w).NoNull := by
  obtain ⟨fs, rfl, -⟩ := get?_of_read_record h
  refine ⟨fun t ht => ?_, ne_null_of_read_record h "format" (by simp [RecordKind.slots]),
    ne_null_of_read_record h "secondaryFiles" (by simp [RecordKind.slots])⟩
  obtain ⟨u, hu, rfl⟩ := Option.map_eq_some_iff.mp ht
  obtain ⟨v', hv⟩ := takes_of_read_record h (.optional "type" (.choice .type))
    (by simp [RecordKind.slots]) nofun hu
  exact TypeExpr.noNull_ofTree u hv.read

end InputParameter

namespace OutputParameter

/-- No field of the parameter, and none in its type, holds null. -/
structure NoNull (p : OutputParameter) : Prop where
  type : ∀ t, p.type = some t → t.NoNull
  format : p.format ≠ some .null
  secondaryFiles : p.secondaryFiles ≠ some .null

/-- The tree of a parameter is in canonical form. -/
theorem read_toTree {p : OutputParameter} (h : p.NoNull) :
    (Shape.record .outputParameter).read p.toTree = .ok p.toTree := by
  have hreads := (((((((((Reads.optionalText "id" p.id).append
    (.optionalText "label" p.label)).append
    (.listedTexts "doc" p.doc)).append
    (.optionalType h.type)).append
    (.optionalPart "outputBinding" (by simp [OutputBinding.toTree])
      fun b (_ : p.outputBinding = some b) => b.read_toTree)).append
    (.listedTexts "outputSource" p.outputSource)).append
    (.optionalText "linkMerge" p.linkMerge)).append
    (.optionalFlag "streamable" p.streamable)).append
    (.optionalTree "format" h.format)).append
    (.optionalTree "secondaryFiles" h.secondaryFiles)
  exact hreads.read_record (r := .outputParameter)

/-- The tree of a parameter stands for it. -/
@[simp] theorem ofTree_toTree (p : OutputParameter) : ofTree p.toTree = p := by
  simp [ofTree, toTree, entries, Entries.optionalText, Entries.optionalFlag, Entries.listedTexts,
    Function.comp_def, TypeExpr.ofTree_toTree]

/-- A parameter that was read from a tree holds no null. -/
theorem noNull_ofTree {v w : Value} (h : (Shape.record .outputParameter).read v = .ok w) :
    (ofTree w).NoNull := by
  obtain ⟨fs, rfl, -⟩ := get?_of_read_record h
  refine ⟨fun t ht => ?_, ne_null_of_read_record h "format" (by simp [RecordKind.slots]),
    ne_null_of_read_record h "secondaryFiles" (by simp [RecordKind.slots])⟩
  obtain ⟨u, hu, rfl⟩ := Option.map_eq_some_iff.mp ht
  obtain ⟨v', hv⟩ := takes_of_read_record h (.optional "type" (.choice .type))
    (by simp [RecordKind.slots]) nofun hu
  exact TypeExpr.noNull_ofTree u hv.read

end OutputParameter

/-! ## Inputs and outputs of steps -/

namespace StepInput

/-- The default of the step input is not null. -/
def NoNull (i : StepInput) : Prop := i.default ≠ some .null

/-- The tree of a step input is in canonical form. -/
theorem read_toTree {i : StepInput} (h : i.NoNull) :
    (Shape.record .stepInput).read i.toTree = .ok i.toTree := by
  have hreads := ((((Reads.optionalText "id" i.id).append
    (.listedTexts "source" i.source)).append
    (.optionalText "linkMerge" i.linkMerge)).append
    (.optionalTree "default" h)).append
    (.optionalText "valueFrom" i.valueFrom)
  exact hreads.read_record (r := .stepInput)

/-- The tree of a step input stands for it. -/
@[simp] theorem ofTree_toTree (i : StepInput) : ofTree i.toTree = i := by
  simp [ofTree, toTree, Entries.optionalText, Entries.listedTexts]

/-- A step input that was read from a tree holds no null. -/
theorem noNull_ofTree {v w : Value} (h : (Shape.record .stepInput).read v = .ok w) :
    (ofTree w).NoNull := by
  obtain ⟨fs, rfl, -⟩ := get?_of_read_record h
  exact ne_null_of_read_record h "default" (by simp [RecordKind.slots])

end StepInput

namespace StepOutput

/-- The tree of a step output is in canonical form. -/
theorem read_toTree (o : StepOutput) :
    (Shape.record .stepOutput).read o.toTree = .ok o.toTree :=
  (Reads.required "id" (read_text o.id)).read_record (r := .stepOutput)

/-- The tree of a step output stands for it. -/
@[simp] theorem ofTree_toTree (o : StepOutput) : ofTree o.toTree = o := by
  simp [ofTree, toTree, Entries.get?_cons]

end StepOutput

end CanonicalCwl
