import CanonicalCwl.Process.Cwl
import CanonicalCwl.Process.Normal
import CanonicalCwl.Proofs.Process.Tree

/-!
# Processes Written as CWL and Read Again

Bringing a process that was written as CWL into normal form gives the process back, up to the
two things that the raw form settles: the class is the one of the process, and types are read
from their notation. `ProcessOf.reread` says what becomes of a process.

- `Normal.process_toCwl`: the normal form of a written process.
- `ProcessOf.reread_eq_self`: nothing changes if every class is the right one and every type is
  one that some notation stands for.
-/

namespace CanonicalCwl

open Result Shape Rewrite

/-! ## What becomes of a process -/

/-- The parameter with its type read from its notation. -/
def InputParameter.reread (p : InputParameter) : InputParameter :=
  { p with type := p.type.map TypeExpr.reread }

/-- The parameter with its type read from its notation. -/
def OutputParameter.reread (p : OutputParameter) : OutputParameter :=
  { p with type := p.type.map TypeExpr.reread }

/-- The header with the name of the class, and with types read from their notation. -/
def Header.reread (tag : ClassTag) (h : Header) : Header :=
  { h with
    className := some tag.name
    inputs := h.inputs.map InputParameter.reread
    outputs := h.outputs.map OutputParameter.reread }

/-- The process with the names of the classes and with types read from their notation, also in
the processes within it. -/
def ProcessOf.reread (p : Process) : Process := p.mapHeaders Header.reread

/-! ## Values -/

namespace Cwl

/-- Documentation is a list of texts again. -/
theorem listOfValue_unwrapDoc (xs : List String) :
    listOfValue (unwrapDoc (.strings xs)) = .strings xs := by
  match xs with
  | [] | [_] | _ :: _ :: _ => rfl

end Cwl

/-- A default finds its tag again. -/
theorem DataValue.coerceDefault_toValue (d : DataValue) : coerceDefault d.toValue = d.toTree := by
  cases d <;> rfl

/-- A type is the tree of what its notation stands for. -/
theorem TypeExpr.tagType_toCwl (t : TypeExpr) : tagType t.toCwl = t.reread.toTree := by
  rw [tagType, resolve_toCwl]

/-! ## Rewrites of single fields

Writing a record and bringing it into normal form both go over its entries, so that together
they rewrite every field by itself. -/

section

variable {f : String → Value → Value} {name : String}

/-- A text that is kept. -/
theorem Entries.mapWithKey_optionalText (h : ∀ v, f name v = v) (s : Option String) :
    Entries.mapWithKey f (Entries.optionalText name s) = Entries.optionalText name s :=
  Entries.mapWithKey_optional_eq_self h

/-- A truth value that is kept. -/
theorem Entries.mapWithKey_optionalFlag (h : ∀ v, f name v = v) (b : Option Bool) :
    Entries.mapWithKey f (Entries.optionalFlag name b) = Entries.optionalFlag name b :=
  Entries.mapWithKey_optional_eq_self h

/-- A list of texts that is kept. -/
theorem Entries.mapWithKey_listedTexts (h : ∀ xs, f name (.strings xs) = .strings xs)
    (xs : List String) :
    Entries.mapWithKey f (Entries.listedTexts name xs) = Entries.listedTexts name xs :=
  Entries.mapWithKey_listed (fun _ => h xs) rfl

/-- An optional part that becomes the tree of another. -/
theorem Entries.mapWithKey_optionalPart {α : Type} {tree tree' : α → Value} {x : Option α}
    (h : ∀ a, x = some a → f name (tree a) = tree' a) :
    Entries.mapWithKey f (Entries.optional name (x.map tree)) =
      Entries.optional name (x.map tree') := by
  cases x with
  | none => rfl
  | some a => simp [h a rfl]

end

/-! ## Parameters -/

namespace Normal

/-- What becomes of a field of a parameter. -/
def parameterField (isInput : Bool) (k : String) (v : Value) : Value :=
  let v := if k ∈ listFields then listOfValue v else v
  let v := if k = "type" then tagType v else v
  let v := if isInput ∧ k = "default" then coerceDefault v else v
  if k = "outputBinding" then onEntries (forceList listFields) v else v

/-- A parameter is rewritten field by field. -/
theorem parameter_mapping (isInput : Bool) (entries : Mapping) :
    parameter isInput (.mapping entries) =
      .mapping (Entries.mapWithKey (parameterField isInput) entries) := by
  unfold parameter
  -- The passes over the entries are merged into one, for inputs and for outputs.
  cases isInput <;>
    simp only [onEntries, forceList, Entries.modify, Entries.mapWithKey_mapWithKey, if_true,
      Bool.false_eq_true, if_false] <;>
    refine congrArg Value.mapping (congrArg (Entries.mapWithKey · entries) ?_) <;>
    funext k v <;>
    simp [parameterField, onEntries, forceList]

/-- The fields of a parameter that are not named are kept. -/
theorem parameterField_eq_self (isInput : Bool) {k : String}
    (h : k ∉ "type" :: "default" :: "outputBinding" :: listFields) (v : Value) :
    parameterField isInput k v = v := by
  simp only [List.mem_cons, not_or] at h
  obtain ⟨htype, hdefault, hbinding, hlist⟩ := h
  simp [parameterField, hlist, htype, hdefault, hbinding]

end Normal

namespace InputParameter

/-- What is written for a field of a parameter. -/
def cwlField (p : InputParameter) (k : String) (v : Value) : Value :=
  let v := if k = "doc" then Cwl.unwrapDoc v else v
  let v := if k = "type" then (p.type.map TypeExpr.toCwl).getD v else v
  if k = "default" then (p.default.map DataValue.toValue).getD v else v

/-- A parameter is written field by field. -/
theorem toCwl_eq (p : InputParameter) :
    p.toCwl = .mapping (Entries.mapWithKey p.cwlField p.entries) := by
  simp only [toCwl, Entries.modify, Entries.mapWithKey_mapWithKey]
  rfl

/-- A written parameter is brought into normal form as the tree of what it is read as. -/
theorem parameter_toCwl (p : InputParameter) :
    Normal.parameter true p.toCwl = p.reread.toTree := by
  -- Both rewrites together are one, which changes the type and keeps the other fields.
  rw [toCwl_eq, Normal.parameter_mapping, Entries.mapWithKey_mapWithKey]
  set f := fun k v => Normal.parameterField true k (p.cwlField k v) with hf
  have hkeep (k : String) (h : k ∉ "type" :: "default" :: "outputBinding" :: Normal.listFields)
      (v : Value) : f k v = v := by
    have hnot := h
    simp only [Normal.listFields, List.mem_cons, not_or] at hnot
    rw [hf]
    simp [Normal.parameterField_eq_self true h, cwlField, hnot]
  have hdoc (xs : List String) : f "doc" (.strings xs) = .strings xs := by
    simp [hf, Normal.parameterField, cwlField, Normal.listFields, Cwl.listOfValue_unwrapDoc]
  have htype (t : TypeExpr) (h : p.type = some t) : f "type" t.toTree = t.reread.toTree := by
    simp [hf, Normal.parameterField, cwlField, Normal.listFields, h, TypeExpr.tagType_toCwl]
  have hdefault (d : DataValue) (h : p.default = some d) : f "default" d.toTree = d.toTree := by
    simp [hf, Normal.parameterField, cwlField, Normal.listFields, h,
      DataValue.coerceDefault_toValue]
  simp only [entries, Entries.mapWithKey_append]
  rw [Entries.mapWithKey_optionalText (hkeep "id" (by decide)),
    Entries.mapWithKey_optionalText (hkeep "label" (by decide)),
    Entries.mapWithKey_listedTexts hdoc, Entries.mapWithKey_optionalPart htype,
    Entries.mapWithKey_optionalPart hdefault,
    Entries.mapWithKey_optional_eq_self (hkeep "inputBinding" (by decide)),
    Entries.mapWithKey_optionalFlag (hkeep "streamable" (by decide)),
    Entries.mapWithKey_optional_eq_self (hkeep "format" (by decide)),
    Entries.mapWithKey_optional_eq_self (hkeep "secondaryFiles" (by decide))]
  simp [toTree, entries, reread, Function.comp_def]

end InputParameter

/-- The lists of the tree of a binding are lists already. -/
theorem OutputBinding.forceList_toTree (b : OutputBinding) :
    onEntries (forceList Normal.listFields) b.toTree = b.toTree := by
  simp only [toTree, onEntries, forceList, Entries.mapWithKey_append]
  rw [Entries.mapWithKey_listedTexts (by simp [Normal.listFields, listOfValue, Value.strings]),
    Entries.mapWithKey_optionalFlag (by simp [Normal.listFields]),
    Entries.mapWithKey_optionalText (by simp [Normal.listFields])]

namespace OutputParameter

/-- What is written for a field of a parameter. -/
def cwlField (p : OutputParameter) (k : String) (v : Value) : Value :=
  let v := if k = "doc" then Cwl.unwrapDoc v else v
  if k = "type" then (p.type.map TypeExpr.toCwl).getD v else v

/-- A parameter is written field by field. -/
theorem toCwl_eq (p : OutputParameter) :
    p.toCwl = .mapping (Entries.mapWithKey p.cwlField p.entries) := by
  simp only [toCwl, Entries.modify, Entries.mapWithKey_mapWithKey]
  rfl

/-- A written parameter is brought into normal form as the tree of what it is read as. -/
theorem parameter_toCwl (p : OutputParameter) :
    Normal.parameter false p.toCwl = p.reread.toTree := by
  -- As for an input, apart from the fields that only an output has.
  rw [toCwl_eq, Normal.parameter_mapping, Entries.mapWithKey_mapWithKey]
  set f := fun k v => Normal.parameterField false k (p.cwlField k v) with hf
  have hkeep (k : String) (h : k ∉ "type" :: "default" :: "outputBinding" :: Normal.listFields)
      (v : Value) : f k v = v := by
    have hnot := h
    simp only [Normal.listFields, List.mem_cons, not_or] at hnot
    rw [hf]
    simp [Normal.parameterField_eq_self false h, cwlField, hnot]
  have hdoc (xs : List String) : f "doc" (.strings xs) = .strings xs := by
    simp [hf, Normal.parameterField, cwlField, Normal.listFields, Cwl.listOfValue_unwrapDoc]
  have htype (t : TypeExpr) (h : p.type = some t) : f "type" t.toTree = t.reread.toTree := by
    simp [hf, Normal.parameterField, cwlField, Normal.listFields, h, TypeExpr.tagType_toCwl]
  have hbinding (b : OutputBinding) (_ : p.outputBinding = some b) :
      f "outputBinding" b.toTree = b.toTree := by
    have hnot : "outputBinding" ∉ Normal.listFields := by decide
    simp [hf, Normal.parameterField, cwlField, hnot, b.forceList_toTree]
  have hsource (xs : List String) : f "outputSource" (.strings xs) = .strings xs := by
    simp [hf, Normal.parameterField, cwlField, Normal.listFields, listOfValue, Value.strings]
  simp only [entries, Entries.mapWithKey_append]
  rw [Entries.mapWithKey_optionalText (hkeep "id" (by decide)),
    Entries.mapWithKey_optionalText (hkeep "label" (by decide)),
    Entries.mapWithKey_listedTexts hdoc, Entries.mapWithKey_optionalPart htype,
    Entries.mapWithKey_optionalPart hbinding, Entries.mapWithKey_listedTexts hsource,
    Entries.mapWithKey_optionalText (hkeep "linkMerge" (by decide)),
    Entries.mapWithKey_optionalFlag (hkeep "streamable" (by decide)),
    Entries.mapWithKey_optional_eq_self (hkeep "format" (by decide)),
    Entries.mapWithKey_optional_eq_self (hkeep "secondaryFiles" (by decide))]
  simp [toTree, entries, reread, Function.comp_def]

end OutputParameter

/-! ## Steps -/

/-- The inputs of a step are in normal form as they are written. -/
theorem StepInput.forceList_toTree (i : StepInput) :
    onEntries (forceList Normal.listFields) i.toTree = i.toTree := by
  simp only [toTree, onEntries, forceList, Entries.mapWithKey_append]
  rw [Entries.mapWithKey_optionalText (by simp [Normal.listFields]),
    Entries.mapWithKey_listedTexts (by simp [Normal.listFields, listOfValue, Value.strings]),
    Entries.mapWithKey_optionalText (by simp [Normal.listFields]),
    Entries.mapWithKey_optional_eq_self (by simp [Normal.listFields]),
    Entries.mapWithKey_optionalText (by simp [Normal.listFields])]

namespace Normal

/-- What becomes of a field of a step other than its run. -/
def stepField (k : String) (v : Value) : Value :=
  let v := if k ∈ stepMapFields then listOfMap "type" v else v
  let v := if k = "in" then listOfMap "source" v else v
  let v := if k ∈ listFields then listOfValue v else v
  let v := if k = "in" then onItems (onEntries (forceList listFields)) v else v
  if k = "out" then onItems stepOutput v else v

/-- A step is rewritten field by field. -/
theorem step_mapping (entries : Mapping) :
    step (.mapping entries) = .mapping (Entries.mapWithKey stepField entries) := by
  unfold step
  simp only [onEntries, dictToList, forceList, Entries.modify, Entries.mapWithKey_mapWithKey]
  refine congrArg Value.mapping (congrArg (Entries.mapWithKey · entries) ?_)
  funext k v
  simp [stepField]

end Normal

namespace StepOf

variable {ρ : Type}

/-- A step that was written and whose run was boxed is brought into normal form as its entries
with that run. -/
theorem step_toCwl (s : StepOf ρ) (raw boxed : Value) :
    Normal.step (.mapping (Entries.modify
        (Entries.modify (s.entriesWith raw) "doc" Cwl.unwrapDoc) "run" fun _ => boxed)) =
      .mapping (s.entriesWith boxed) := by
  rw [Normal.step_mapping]
  simp only [Entries.modify, Entries.mapWithKey_mapWithKey]
  -- Writing, boxing and normalising a step are one rewrite, which replaces its run.
  set f := fun k v => Normal.stepField k
    (if k = "run" then boxed else if k = "doc" then Cwl.unwrapDoc v else v) with hf
  have hkeep (k : String)
      (h : k ∉ "in" :: "out" :: "run" :: Normal.stepMapFields ++ Normal.listFields)
      (v : Value) : f k v = v := by
    simp only [Normal.stepMapFields, Normal.listFields, List.cons_append, List.nil_append,
      List.mem_cons, not_or] at h
    simp [hf, Normal.stepField, Normal.stepMapFields, Normal.listFields, h]
  have hdoc (xs : List String) : f "doc" (.strings xs) = .strings xs := by
    simp [hf, Normal.stepField, Normal.stepMapFields, Normal.listFields,
      Cwl.listOfValue_unwrapDoc]
  have hscatter (xs : List String) : f "scatter" (.strings xs) = .strings xs := by
    simp [hf, Normal.stepField, Normal.stepMapFields, Normal.listFields, listOfValue,
      Value.strings]
  have hlist (k : String) (h : k ∈ Normal.stepMapFields) (xs : List Value) :
      f k (.sequence xs) = .sequence xs := by
    simp only [Normal.stepMapFields, List.mem_cons, List.not_mem_nil, or_false] at h
    rcases h with rfl | rfl <;>
      simp [hf, Normal.stepField, Normal.stepMapFields, Normal.listFields, listOfMap]
  have hin : f "in" (.sequence (s.inputs.map StepInput.toTree)) =
      .sequence (s.inputs.map StepInput.toTree) := by
    have hnot : "in" ∉ Normal.stepMapFields ∧ "in" ∉ Normal.listFields := by decide
    simp [hf, Normal.stepField, hnot, listOfMap, onItems, Function.comp_def,
      StepInput.forceList_toTree]
  have hout : f "out" (.sequence (s.outputs.map StepOutput.toTree)) =
      .sequence (s.outputs.map StepOutput.toTree) := by
    simp [hf, Normal.stepField, Normal.stepMapFields, Normal.listFields, onItems,
      Normal.stepOutput, StepOutput.toTree]
  have hrun : f "run" raw = boxed := by
    simp [hf, Normal.stepField, Normal.stepMapFields, Normal.listFields]
  simp only [entriesWith, Entries.mapWithKey_append, Entries.mapWithKey_cons,
    Entries.mapWithKey_nil]
  rw [Entries.mapWithKey_optionalText (hkeep "id" (by decide)),
    Entries.mapWithKey_optionalText (hkeep "label" (by decide)),
    Entries.mapWithKey_listedTexts hdoc,
    Entries.mapWithKey_listed (fun _ => hin) rfl, Entries.mapWithKey_listed (fun _ => hout) rfl,
    hrun, Entries.listedMappings,
    Entries.mapWithKey_listed (fun _ => hlist "requirements" (by decide) _) rfl,
    Entries.listedMappings,
    Entries.mapWithKey_listed (fun _ => hlist "hints" (by decide) _) rfl,
    Entries.mapWithKey_listedTexts hscatter,
    Entries.mapWithKey_optionalText (hkeep "scatterMethod" (by decide))]

/-- Among the entries of a step that was written, only its run has the key of a run. -/
theorem eq_of_mem_run (s : StepOf ρ) {raw v : Value}
    (h : ("run", v) ∈ Entries.modify (s.entriesWith raw) "doc" Cwl.unwrapDoc) : v = raw := by
  obtain ⟨w, hw, rfl⟩ := Entries.mem_mapWithKey.mp h
  simpa [entriesWith, Entries.optionalText, Entries.listedTexts, Entries.listedMappings] using hw

end StepOf

/-! ## Headers -/

namespace Normal

/-- What becomes of a field of a process of a class. -/
def field (tag : ClassTag) (k : String) (v : Value) : Value :=
  let v := if k ∈ mapFields tag then listOfMap "type" v else v
  let v := if k ∈ listFields then listOfValue v else v
  let v := if k = "inputs" then onItems (parameter true) v else v
  let v := if k = "outputs" then onItems (parameter false) v else v
  match tag with
  | .commandLineTool => if k = "arguments" then onItems argument v else v
  | .expressionTool => v
  | .workflow => if k = "steps" then onItems step v else v

/-- A process is rewritten field by field. -/
theorem fields_eq (tag : ClassTag) (entries : Mapping) :
    fields tag entries = Entries.mapWithKey (field tag) entries := by
  unfold fields common
  cases tag <;>
    simp only [dictToList, forceList, Entries.modify, Entries.mapWithKey_mapWithKey] <;>
    refine congrArg (Entries.mapWithKey · entries) ?_ <;>
    funext k v <;>
    simp [field]

end Normal

namespace Header

/-- What is written for a field of a process. -/
def cwlField (h : Header) (k : String) (v : Value) : Value :=
  let v := if k = "doc" then Cwl.unwrapDoc v else v
  let v := if k = "inputs" then .sequence (h.inputs.map InputParameter.toCwl) else v
  if k = "outputs" then .sequence (h.outputs.map OutputParameter.toCwl) else v

/-- A process is written field by field, its class in front. -/
theorem toCwl_eq (tag : ClassTag) (h : Header) (entries : Mapping) :
    h.toCwl tag entries = .mapping
      (("class", .string tag.name) ::
        Entries.mapWithKey h.cwlField (Entries.erase entries "class")) := by
  simp only [toCwl, Cwl.process, Entries.modify, Entries.mapWithKey_mapWithKey]
  rfl

/-- A rewrite of the fields of a process that only reads the types of its parameters again. -/
structure Rereads (h : Header) (f : String → Value → Value) : Prop where
  keep : ∀ k ∈ ["id", "cwlVersion", "label", "$namespaces", "$schemas"], ∀ v, f k v = v
  doc : ∀ xs, f "doc" (.strings xs) = .strings xs
  lists : ∀ k ∈ ["requirements", "hints"], ∀ xs, f k (.sequence xs) = .sequence xs
  inputs : f "inputs" (.sequence (h.inputs.map InputParameter.toTree)) =
    .sequence (h.inputs.map fun p => p.reread.toTree)
  outputs : f "outputs" (.sequence (h.outputs.map OutputParameter.toTree)) =
    .sequence (h.outputs.map fun p => p.reread.toTree)

variable {h : Header} {f : String → Value → Value}

/-- The entries of the header after such a rewrite, its class left out. -/
theorem Rereads.mapWithKey_entries (hf : h.Rereads f) (tag : ClassTag) :
    Entries.mapWithKey f (Entries.erase h.entries "class") =
      Entries.erase (h.reread tag).entries "class" := by
  simp only [entries, reread, Entries.optionalText, Entries.listedTexts, Entries.listedMappings,
    Entries.erase_append, Entries.erase_optional, Entries.erase_listed, String.reduceEq,
    if_false, if_true, Entries.mapWithKey_append, Entries.mapWithKey_nil, List.map_map,
    Function.comp_def]
  rw [Entries.mapWithKey_optional_eq_self (hf.keep "id" (by simp)),
    Entries.mapWithKey_optional_eq_self (hf.keep "cwlVersion" (by simp)),
    Entries.mapWithKey_optional_eq_self (hf.keep "label" (by simp)),
    Entries.mapWithKey_listed (fun _ => hf.doc _) rfl,
    Entries.mapWithKey_listed (fun _ => hf.inputs) (by simp),
    Entries.mapWithKey_listed (fun _ => hf.outputs) (by simp),
    Entries.mapWithKey_listed (fun _ => hf.lists "requirements" (by simp) _) rfl,
    Entries.mapWithKey_listed (fun _ => hf.lists "hints" (by simp) _) rfl]

/-- The footer after such a rewrite. -/
theorem Rereads.mapWithKey_footer (hf : h.Rereads f) (tag : ClassTag) :
    Entries.mapWithKey f h.footer = (h.reread tag).footer := by
  rw [footer, Entries.mapWithKey_append,
    Entries.mapWithKey_optional_eq_self (hf.keep "$namespaces" (by simp)),
    Entries.mapWithKey_optional_eq_self (hf.keep "$schemas" (by simp))]
  rfl

/-- Writing a process and bringing it into normal form is such a rewrite, whatever becomes of
its steps in between. -/
theorem rereads_normal (tag : ClassTag) (h : Header) {box : String → Value → Value}
    (hbox : ∀ k v, k ≠ "steps" → box k v = v) :
    h.Rereads fun k v => Normal.field tag k (box k (h.cwlField k v)) := by
  -- For every class, the rewrite looks at the key alone to tell what to do.
  constructor
  case keep =>
    intro k hk v
    simp only [List.mem_cons, List.not_mem_nil, or_false] at hk
    rcases hk with rfl | rfl | rfl | rfl | rfl <;> rw [hbox _ _ (by decide)] <;> cases tag <;>
      simp [Normal.field, cwlField, Normal.mapFields, Normal.listFields]
  case doc =>
    intro xs
    rw [hbox _ _ (by decide)]
    cases tag <;>
      simp [Normal.field, cwlField, Normal.mapFields, Normal.listFields,
        Cwl.listOfValue_unwrapDoc]
  case lists =>
    intro k hk xs
    simp only [List.mem_cons, List.not_mem_nil, or_false] at hk
    rcases hk with rfl | rfl <;> rw [hbox _ _ (by decide)] <;> cases tag <;>
      simp [Normal.field, cwlField, Normal.mapFields, Normal.listFields, listOfMap]
  case inputs =>
    rw [hbox _ _ (by decide)]
    cases tag <;>
      simp [Normal.field, cwlField, Normal.mapFields, Normal.listFields, listOfMap, onItems,
        Function.comp_def, InputParameter.parameter_toCwl]
  case outputs =>
    rw [hbox _ _ (by decide)]
    cases tag <;>
      simp [Normal.field, cwlField, Normal.mapFields, Normal.listFields, listOfMap, onItems,
        Function.comp_def, OutputParameter.parameter_toCwl]

end Header

/-! ## Processes -/

namespace Normal

/-- A tree whose class stands in front is of that class. -/
theorem ofDocument_front (tag : ClassTag) (rest : Mapping) :
    ClassTag.ofDocument (.mapping (("class", .string tag.name) :: rest)) = .ok tag := by
  simp [ClassTag.ofDocument, Entries.get?_cons]

/-- Boxing replaces the run of a step. -/
theorem boxField_eq_modify {es : Mapping} {boxed : Value}
    (h : ∀ v, ("run", v) ∈ es → boxRun v (tree v) = .ok boxed) :
    boxField es = .ok (Entries.modify es "run" fun _ => boxed) := by
  induction es with
  | nil => rfl
  | cons e rest ih =>
    obtain ⟨k, v⟩ := e
    have hrest := ih fun w hw => h w (List.mem_cons_of_mem _ hw)
    rw [boxField, hrest]
    by_cases hk : k = "run"
    · subst hk
      rw [if_pos rfl, h v (List.mem_cons_self ..)]
      rfl
    · rw [if_neg hk]
      simp [Entries.modify, hk, Bind.bind, Except.bind, Pure.pure, Except.pure]

/-- Boxing replaces the steps of a workflow. -/
theorem boxSteps_eq_modify {es : Mapping} {boxed : Value}
    (h : ∀ v, ("steps", v) ∈ es → boxStepsOf v = .ok boxed) :
    boxSteps es = .ok (Entries.modify es "steps" fun _ => boxed) := by
  induction es with
  | nil => rfl
  | cons e rest ih =>
    obtain ⟨k, v⟩ := e
    have hrest := ih fun w hw => h w (List.mem_cons_of_mem _ hw)
    rw [boxSteps, hrest]
    by_cases hk : k = "steps"
    · subst hk
      rw [if_pos rfl, h v (List.mem_cons_self ..)]
      rfl
    · rw [if_neg hk]
      simp [Entries.modify, hk, Bind.bind, Except.bind, Pure.pure, Except.pure]

/-- The tree stage rewrites the fields of a process whose steps are boxed. -/
theorem tree_mapping {tag : ClassTag} {entries boxed : Mapping}
    (htag : ClassTag.ofDocument (.mapping entries) = .ok tag)
    (hboxed : (if tag = .workflow then boxSteps entries else .ok entries) = .ok boxed) :
    tree (.mapping entries) = .ok (.mapping (fields tag boxed)) := by
  rw [tree, htag]
  cases tag with
  | workflow =>
    rw [if_pos rfl] at hboxed
    simp [Bind.bind, Except.bind, hboxed, Pure.pure, Except.pure]
  | _ =>
    rw [if_neg nofun] at hboxed
    cases hboxed
    rfl

/-- The tree stage on a written process, put together from what becomes of its own fields. -/
theorem tree_toCwl {tag : ClassTag} {h : Header} {own own' : Mapping}
    (box : String → Value → Value) (hbox : ∀ k v, k ≠ "steps" → box k v = v)
    (hboxed : ∀ entries, (.mapping entries : Value) =
        h.toCwl tag (h.entries ++ own ++ h.footer) →
      (if tag = .workflow then boxSteps entries else .ok entries) =
        .ok (Entries.mapWithKey box entries))
    (hclass : Entries.erase own "class" = own)
    (hown : Entries.mapWithKey (fun k v => field tag k (box k (h.cwlField k v))) own = own') :
    tree (h.toCwl tag (h.entries ++ own ++ h.footer)) =
      .ok (.mapping (("class", .string tag.name) ::
        Entries.erase ((h.reread tag).entries ++ own' ++ (h.reread tag).footer) "class")) := by
  have hrereads := h.rereads_normal tag hbox
  have hfooter (h : Header) : Entries.erase h.footer "class" = h.footer := by
    simp [Header.footer]
  have hclass' : Entries.erase own' "class" = own' := by
    rw [← hown, Entries.erase_mapWithKey, hclass]
  -- The class comes to the front when the process is written, and stays there.
  have hwritten : h.toCwl tag (h.entries ++ own ++ h.footer) = .mapping
      (("class", .string tag.name) :: Entries.mapWithKey h.cwlField
        (Entries.erase h.entries "class" ++ own ++ h.footer)) := by
    rw [Header.toCwl_eq, Entries.erase_append, Entries.erase_append, hclass, hfooter]
  have hkeep : field tag "class" (box "class" (.string tag.name)) = .string tag.name := by
    rw [hbox _ _ (by decide)]
    cases tag <;> simp [field, mapFields, listFields]
  rw [hwritten, tree_mapping (ofDocument_front tag _) (hboxed _ hwritten.symm), fields_eq,
    Entries.mapWithKey_mapWithKey]
  simp only [Entries.mapWithKey_cons, hkeep, Entries.mapWithKey_append,
    Entries.mapWithKey_mapWithKey, hrereads.mapWithKey_entries tag,
    hrereads.mapWithKey_footer tag, hown, Entries.erase_append, hclass', hfooter]

/-- The tree stage on a tool that was written. -/
theorem tree_commandLineTool (t : CommandLineTool) :
    tree (t.toHeader.toCwl .commandLineTool t.entries) = .ok (.mapping
      (("class", .string (ClassTag.name .commandLineTool)) :: Entries.erase
        ({ t with toHeader := t.toHeader.reread .commandLineTool } : CommandLineTool).entries
        "class")) := by
  have hclass : Entries.erase t.ownEntries "class" = t.ownEntries := by
    simp [CommandLineTool.ownEntries, Entries.listedTexts, Entries.listedInts,
      Entries.optionalText]
  have hown : Entries.mapWithKey (fun k v => field .commandLineTool k (t.toHeader.cwlField k v))
      t.ownEntries = t.ownEntries := by
    set f := fun k v => field .commandLineTool k (t.toHeader.cwlField k v) with hf
    -- The lists of the tool are lists already, and its arguments are bindings already.
    have hkeep (k : String)
        (h : k ∉ "doc" :: "arguments" :: mapFields .commandLineTool ++ listFields) (v : Value) :
        f k v = v := by
      simp only [mapFields, listFields, List.cons_append, List.nil_append, List.mem_cons,
        List.not_mem_nil, not_or] at h
      simp [hf, field, Header.cwlField, mapFields, listFields, h]
    have hcommand (xs : List String) : f "baseCommand" (.strings xs) = .strings xs := by
      simp [hf, field, Header.cwlField, mapFields, listFields, listOfValue, Value.strings]
    have harguments : f "arguments" (.sequence (t.arguments.map CommandLineBinding.toTree)) =
        .sequence (t.arguments.map CommandLineBinding.toTree) := by
      simp [hf, field, Header.cwlField, mapFields, listFields, onItems, argument,
        CommandLineBinding.toTree]
    simp only [CommandLineTool.ownEntries, Entries.mapWithKey_append]
    rw [Entries.mapWithKey_listedTexts hcommand,
      Entries.mapWithKey_listed (fun _ => harguments) rfl,
      Entries.mapWithKey_optionalText (hkeep "stdin" (by decide)),
      Entries.mapWithKey_optionalText (hkeep "stdout" (by decide)),
      Entries.mapWithKey_optionalText (hkeep "stderr" (by decide)), Entries.listedInts,
      Entries.mapWithKey_listed (fun _ => hkeep "successCodes" (by decide) _) rfl,
      Entries.listedInts,
      Entries.mapWithKey_listed (fun _ => hkeep "temporaryFailCodes" (by decide) _) rfl,
      Entries.listedInts,
      Entries.mapWithKey_listed (fun _ => hkeep "permanentFailCodes" (by decide) _) rfl]
  rw [t.entries_eq, CommandLineTool.entries_eq]
  refine tree_toCwl (fun _ v => v) (fun _ _ _ => rfl) (fun entries _ => ?_) hclass hown
  rw [if_neg (by decide), Entries.mapWithKey_eq_self fun _ _ _ => rfl]

/-- The tree stage on a tool that was written. -/
theorem tree_expressionTool (t : ExpressionTool) :
    tree (t.toHeader.toCwl .expressionTool t.entries) = .ok (.mapping
      (("class", .string (ClassTag.name .expressionTool)) :: Entries.erase
        ({ t with toHeader := t.toHeader.reread .expressionTool } : ExpressionTool).entries
        "class")) := by
  refine tree_toCwl (fun _ v => v) (fun _ _ _ => rfl) (fun entries _ => ?_) (by simp) ?_
  · rw [if_neg nofun, Entries.mapWithKey_eq_self fun _ _ _ => rfl]
  · simp [field, Header.cwlField, mapFields, listFields]

/-- Boxing keeps the number of steps. -/
theorem length_of_boxItems {vs ws : List Value} (h : boxItems vs = .ok ws) :
    vs.length = ws.length := by
  induction vs generalizing ws with
  | nil =>
    simp only [boxItems, Except.ok.injEq] at h
    simp [← h]
  | cons v vs ih =>
    simp only [boxItems, bind_eq_ok_iff, pure_eq_ok_iff] at h
    obtain ⟨w, -, ws, hws, rfl⟩ := h
    simp [ih hws]

/-- The tree stage on a workflow that was written, from what becomes of its steps. -/
theorem tree_workflow (w : Workflow) {raws boxed : List Value} (h : boxItems raws = .ok boxed) :
    tree (w.toHeader.toCwl .workflow (w.entriesWith raws)) = .ok (.mapping
      (("class", .string (ClassTag.name .workflow)) :: Entries.erase
        (({ w with toHeader := w.toHeader.reread .workflow } : Workflow).entriesWith
          (boxed.map step)) "class")) := by
  have hlength := length_of_boxItems h
  -- Boxing is a rewrite of the steps, so that it is one more pass over the entries.
  set box : String → Value → Value := fun k v => if k = "steps" then .sequence boxed else v
    with hbox
  refine tree_toCwl box (fun k v hk => ?_) (fun entries hentries => ?_) (by simp) ?_
  · rw [hbox]
    exact if_neg hk
  · rw [if_pos rfl, boxSteps_eq_modify]
    · rfl
    · intro v hv
      rw [Header.toCwl_eq, Value.mapping.injEq] at hentries
      simp only [hentries, List.mem_cons, Prod.mk.injEq, String.reduceEq, false_and, false_or,
        Entries.mem_mapWithKey, Entries.mem_erase] at hv
      obtain ⟨u, ⟨hu, -⟩, rfl⟩ := hv
      -- Among the entries only those of the steps have their key.
      have hsteps : Entries.nonempty? raws = some u := by
        simpa [Header.entries, Header.footer, Entries.optionalText, Entries.listedTexts,
          Entries.listedMappings] using hu
      obtain rfl : .sequence raws = u := by
        cases raws with
        | nil => cases hsteps
        | cons => exact Option.some.inj hsteps
      have hkeep : w.toHeader.cwlField "steps" (.sequence raws) = .sequence raws := by
        simp [Header.cwlField]
      rw [hkeep, boxStepsOf, h]
      rfl
  · refine Entries.mapWithKey_listed (fun _ => ?_) (by simpa using hlength)
    simp [hbox, field, Header.cwlField, mapFields, listFields, listOfMap, onItems]

end Normal

/-- A record whose class stands in front is read as its canonical form. -/
theorem Shape.Reads.read_class_front (tag : ClassTag) {es fs : Mapping}
    (h : Reads tag.record.slots es fs)
    (hclass : Entries.get? fs "class" = some (.string tag.name)) :
    (Shape.record tag.record).read
        (.mapping (("class", .string tag.name) :: Entries.erase es "class")) =
      .ok (.mapping fs) := by
  have hslot : Slot.optional "class" .text ∈ tag.record.slots := by
    cases tag <;> simp [ClassTag.record, RecordKind.slots, RecordKind.headerSlots]
  exact h.read_record_front hslot ⟨read_text _, rfl, fun hempty => by cases hempty⟩ hclass

/-- The class of a header that was read again is the one of the process. -/
theorem Header.get?_class_reread (tag : ClassTag) (h : Header) (rest : Mapping) :
    Entries.get? ((h.reread tag).entries ++ rest) "class" = some (.string tag.name) := by
  simp [entries, reread, Entries.optionalText, Entries.listedTexts, Entries.listedMappings]

/-- Reading the parameters of a header again brings in no null. -/
theorem Header.noNull_reread {tag : ClassTag} {h : Header} (hnull : h.NoNull) :
    (h.reread tag).NoNull := by
  have type {t : Option TypeExpr} (ht : ∀ a, t = some a → a.NoNull) (a : TypeExpr)
      (ha : t.map TypeExpr.reread = some a) : a.NoNull := by
    obtain ⟨b, hb, rfl⟩ := Option.map_eq_some_iff.mp ha
    exact TypeExpr.noNull_reread (ht b hb)
  constructor
  case inputs =>
    intro p hp
    obtain ⟨q, hq, rfl⟩ := List.mem_map.mp hp
    have hq := hnull.inputs q hq
    exact ⟨type hq.type, hq.format, hq.secondaryFiles⟩
  case outputs =>
    intro p hp
    obtain ⟨q, hq, rfl⟩ := List.mem_map.mp hp
    have hq := hnull.outputs q hq
    exact ⟨type hq.type, hq.format, hq.secondaryFiles⟩
  case namespaces => exact hnull.namespaces
  case schemas => exact hnull.schemas

/-- A written process has a class. -/
theorem Run.processToCwl_front (p : Process) :
    ∃ rest, processToCwl p = .mapping (("class", .string p.classTag.name) :: rest) := by
  cases p <;> exact ⟨_, Header.toCwl_eq ..⟩

namespace Run

mutual

/-- What a step runs is written so that its boxed normal form is read as what was written. -/
theorem boxRun_toCwl : ∀ {r : Run}, (∀ p, r = inline p → p.NoNull) →
    ∃ t, Normal.boxRun (toCwl r) (Normal.tree (toCwl r)) = .ok t ∧
      (Shape.choice .run).read t = .ok (toTree (mapHeaders Header.reread r))
  | path target, _ => by
      refine ⟨.tagged "path" (.string target), by rw [toCwl, Normal.boxRun], ?_⟩
      rw [mapHeaders, toTree]
      exact read_tagged rfl (read_text target)
  | inline p, h => by
      obtain ⟨t, htree, hread⟩ := tree_processToCwl (h p rfl)
      obtain ⟨rest, hrest⟩ := processToCwl_front p
      refine ⟨.tagged p.classTag.arm t, ?_, ?_⟩
      · rw [toCwl, htree, hrest, Normal.boxRun, Normal.ofDocument_front]
        simp [Entries.contains, Entries.get?_cons, Bind.bind, Except.bind, Pure.pure, Except.pure]
      · have harm : Entries.get? (ChoiceKind.arms .run) p.classTag.arm =
            some (.record p.classTag.record) := by cases p <;> rfl
        have htag : (mapHeadersProcess Header.reread p).classTag = p.classTag := by
          cases p <;> rfl
        rw [mapHeaders, toTree, htag]
        exact read_tagged harm hread

/-- A process is written so that its normal form is read as what was written. -/
theorem tree_processToCwl : ∀ {p : ProcessOf Run}, ProcessOf.NoNull p →
    ∃ t, Normal.tree (processToCwl p) = .ok t ∧
      (Shape.record p.classTag.record).read t =
        .ok (processTree (mapHeadersProcess Header.reread p))
  | .commandLineTool t, .commandLineTool hnull => by
      refine ⟨_, Normal.tree_commandLineTool t, ?_⟩
      refine (CommandLineTool.reads_entries (Header.noNull_reread hnull)).read_class_front
        .commandLineTool ?_
      rw [CommandLineTool.entries_eq, List.append_assoc]
      exact Header.get?_class_reread ..
  | .expressionTool t, .expressionTool hnull => by
      refine ⟨_, Normal.tree_expressionTool t, ?_⟩
      refine (ExpressionTool.reads_entries (Header.noNull_reread hnull)).read_class_front
        .expressionTool ?_
      rw [ExpressionTool.entries, List.append_assoc]
      exact Header.get?_class_reread ..
  | .workflow w, .workflow hnull hinputs hruns => by
      obtain ⟨boxed, hboxed, hread⟩ := boxItems_stepsToCwl hinputs hruns
      refine ⟨_, Normal.tree_workflow w hboxed, ?_⟩
      refine (WorkflowOf.reads_entriesWith (Header.noNull_reread hnull) hread).read_class_front
        .workflow ?_
      rw [WorkflowOf.entriesWith, List.append_assoc]
      exact Header.get?_class_reread ..

/-- Steps are written so that their normal forms are read as what was written. -/
theorem boxItems_stepsToCwl : ∀ {steps : List (StepOf Run)},
    (∀ s ∈ steps, ∀ i ∈ s.inputs, i.NoNull) →
    (∀ s ∈ steps, ∀ p, s.run = inline p → ProcessOf.NoNull p) →
    ∃ boxed, Normal.boxItems (stepsToCwl steps) = .ok boxed ∧
      List.Forall₂ (fun v v' => (Shape.record .step).read v = .ok v') (boxed.map Normal.step)
        (stepTrees (mapHeadersSteps Header.reread steps))
  | [], _, _ => ⟨[], rfl, .nil⟩
  | s :: rest, hinputs, hruns => by
      obtain ⟨t, hbox, hread⟩ := boxRun_toCwl (hruns s (List.mem_cons_self ..))
      obtain ⟨boxed, hboxed, hrest⟩ := boxItems_stepsToCwl
        (fun s hs => hinputs s (List.mem_cons_of_mem _ hs))
        (fun s hs => hruns s (List.mem_cons_of_mem _ hs))
      -- The run of a step is boxed before the other fields of the step are rewritten.
      have hstep : Normal.boxStep (.mapping (Entries.modify (s.entriesWith (toCwl s.run)) "doc"
          Cwl.unwrapDoc)) = .ok (.mapping (Entries.modify (Entries.modify
            (s.entriesWith (toCwl s.run)) "doc" Cwl.unwrapDoc) "run" fun _ => t)) := by
        rw [Normal.boxStep, Normal.boxField_eq_modify fun v hv => by rwa [s.eq_of_mem_run hv]]
        rfl
      refine ⟨_, by rw [stepsToCwl, Normal.boxItems, hstep, hboxed]; rfl, ?_⟩
      rw [List.map_cons, s.step_toCwl, mapHeadersSteps, stepTrees]
      have hreads := StepOf.reads_entriesWith (hinputs s (List.mem_cons_self ..)) hread
      exact .cons hreads.read_record hrest

end

end Run

/-- The normal form of a process that was written is what is read of it. -/
theorem Normal.process_toCwl {p : Process} (h : p.NoNull) :
    Normal.process p.toCwl = .ok p.reread := by
  obtain ⟨t, htree, hread⟩ := Run.tree_processToCwl h
  obtain ⟨rest, hrest⟩ := Run.processToCwl_front p
  have htag : ClassTag.ofDocument (Run.processToCwl p) = .ok p.classTag := by
    rw [hrest, ofDocument_front]
  -- The tree that was read is the one of the process, so that decoding it gives the process.
  have hdecode : decode p.classTag t = .ok p.reread := by
    refine mapError_eq_ok_iff.mpr ?_
    rw [ProcessOf.decode_eq]
    refine map_eq_ok_iff.mpr ⟨_, hread, ?_⟩
    have hof := ProcessOf.ofTree_toTree p.reread
    rwa [ProcessOf.reread, ProcessOf.classTag_mapHeaders] at hof
  rw [ProcessOf.toCwl, Normal.process, htag]
  simp only [Bind.bind, Except.bind, htree, hdecode]

/-! ## Processes that stay as they are -/

/-- The types of the parameters of a process. -/
def Header.types (h : Header) : List TypeExpr :=
  h.inputs.filterMap (·.type) ++ h.outputs.filterMap (·.type)

/-- A header stays as it is if it names the class of the process and all of its types are such
that some notation stands for them. -/
theorem Header.reread_eq_self {tag : ClassTag} {h : Header} (hclass : h.className = some tag.name)
    (htypes : ∀ t ∈ h.types, ∃ context v, TypeExpr.resolve context v = .ok t) :
    h.reread tag = h := by
  have keep (t : TypeExpr) (ht : t ∈ h.types) : t.reread = t := by
    obtain ⟨context, v, hv⟩ := htypes t ht
    exact TypeExpr.reread_eq_self (TypeExpr.legible_of_resolve v hv)
  have keepOption {t : Option TypeExpr} (ht : ∀ a, t = some a → a ∈ h.types) :
      t.map TypeExpr.reread = t := by
    cases t with
    | none => rfl
    | some a => rw [Option.map_some, keep a (ht a rfl)]
  have hinputs : h.inputs.map InputParameter.reread = h.inputs := by
    refine map_eq_self fun p hp => ?_
    rw [InputParameter.reread, keepOption fun a ha => ?_]
    exact List.mem_append_left _ (List.mem_filterMap.mpr ⟨p, hp, ha⟩)
  have houtputs : h.outputs.map OutputParameter.reread = h.outputs := by
    refine map_eq_self fun p hp => ?_
    rw [OutputParameter.reread, keepOption fun a ha => ?_]
    exact List.mem_append_right _ (List.mem_filterMap.mpr ⟨p, hp, ha⟩)
  rw [reread, hinputs, houtputs, ← hclass]

/-- A process stays as it is if every process within it names its own class, and all of the
types there are such that some notation stands for them. -/
theorem ProcessOf.reread_eq_self {p : Process}
    (h : ∀ q : Process, q.Within p → q.header.className = some q.classTag.name ∧
      ∀ t ∈ q.header.types, ∃ context v, TypeExpr.resolve context v = .ok t) :
    p.reread = p :=
  mapHeaders_eq_self fun q hq => Header.reread_eq_self (h q hq).1 (h q hq).2

end CanonicalCwl
