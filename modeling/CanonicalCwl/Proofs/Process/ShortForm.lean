import CanonicalCwl.Proofs.Process.Fieldwise
import CanonicalCwl.Proofs.TypeExpr.ShortForm
import Mathlib.Logic.Relation

/-!
# Short Forms of Documents

A raw document may be written in short forms: maps keyed by id for lists of records, one value
for a list of it, a text for a record with one field, and the short notation of types. Each of
them may be spelled out wherever it is understood, in the document itself and in the processes
that the steps of a workflow run inline. Documents that differ in their short forms have the same
normal form.

- `ShortForm.SpellsOut`: one short form is spelled out in a document.
- `ShortForm.tree_eq_ok_of_equivalent`: short forms do not matter for the normal form.
-/

namespace CanonicalCwl

open Result Rewrite

namespace ShortForm

variable {v v' : Value} {R : Value → Value → Prop} {F : String → Value → Value → Prop}

/-! ## Places -/

/-- One item of a sequence changes. -/
inductive InItem (R : Value → Value → Prop) : Value → Value → Prop
  | intro (before after : List Value) {v v' : Value} (h : R v v') :
      InItem R (.sequence (before ++ v :: after)) (.sequence (before ++ v' :: after))

/-- The value of one entry of a mapping changes, in a way that its key allows. -/
inductive InEntry (F : String → Value → Value → Prop) : Value → Value → Prop
  | intro (before after : Mapping) {k : String} {v v' : Value} (h : F k v v') :
      InEntry F (.mapping (before ++ (k, v) :: after)) (.mapping (before ++ (k, v') :: after))

/-- One field of one record changes, in a list of records or in a map of them keyed by id. What
the map has under an id may also be the value of the field `tag` alone, before and after: a
mapping would be the record itself. -/
inductive InRecord (tag : String) (F : String → Value → Value → Prop) : Value → Value → Prop
  | listed {v v' : Value} (h : InItem (InEntry F) v v') : InRecord tag F v v'
  | keyed (before after : Mapping) (id : String) {v v' : Value} (h : InEntry F v v') :
      InRecord tag F (.mapping (before ++ (id, v) :: after))
        (.mapping (before ++ (id, v') :: after))
  | alone (before after : Mapping) (id : String) {v v' : Value} (hv : v.mapping? = none)
      (hv' : v'.mapping? = none) (h : F tag v v') :
      InRecord tag F (.mapping (before ++ (id, v) :: after))
        (.mapping (before ++ (id, v') :: after))

/-! ## Short forms -/

/-- A value in place of a list is the list of it, and null is the empty list. -/
inductive Single : String → Value → Value → Prop
  | null {k : String} (hk : k ∈ Normal.listFields) : Single k .null (.sequence [])
  | value {k : String} {v : Value} (hk : k ∈ Normal.listFields) (hnull : v ≠ .null)
      (hlist : ∀ vs, v ≠ .sequence vs) : Single k v (.sequence [v])

/-- What a map has under an id is the record with that id. A value that is not a mapping is the
field `tag` of the record. -/
inductive KeyedEntry (tag id : String) : Value → Value → Prop
  | record (es : Mapping) :
      KeyedEntry tag id (.mapping es) (.mapping (("id", .string id) :: Entries.erase es "id"))
  | alone {v : Value} (h : v.mapping? = none) :
      KeyedEntry tag id v (.mapping [("id", .string id), (tag, v)])

/-- A map keyed by id is the list of its records. -/
inductive Keyed (tag : String) : Value → Value → Prop
  | intro {es : Mapping} {ws : List Value}
      (h : List.Forall₂ (fun e w => KeyedEntry tag e.1 e.2 w) es ws) :
      Keyed tag (.mapping es) (.sequence ws)

/-- A text is the record with one field that it is the value of. -/
inductive Text (key : String) : Value → Value → Prop
  | intro (s : String) : Text key (.string s) (.mapping [(key, .string s)])

/-- A short form is spelled out in a field of a parameter. -/
inductive ParameterField : String → Value → Value → Prop
  | single {k : String} {v v' : Value} (h : Single k v v') : ParameterField k v v'
  | type {v v' : Value} {t : TypeExpr} (ht : TypeExpr.resolve "" v = .ok t)
      (h : TypeExpr.SpellsOut v v') : ParameterField "type" v v'
  | outputBinding {v v' : Value} (h : InEntry Single v v') : ParameterField "outputBinding" v v'

/-- A short form is spelled out in a field of a step, or in a process that it runs inline. -/
inductive StepField (Inline : Value → Value → Prop) : String → Value → Value → Prop
  | keyed {k : String} {v v' : Value} (hk : k ∈ Normal.stepMapFields) (h : Keyed "type" v v') :
      StepField Inline k v v'
  | inputs {v v' : Value} (h : Keyed "source" v v') : StepField Inline "in" v v'
  | input {v v' : Value} (h : InRecord "source" Single v v') : StepField Inline "in" v v'
  | output {v v' : Value} (h : InItem (Text "id") v v') : StepField Inline "out" v v'
  | single {k : String} {v v' : Value} (h : Single k v v') : StepField Inline k v v'
  | path {v v' : Value} (h : Text "path" v v') : StepField Inline "run" v v'
  | inline {v v' : Value} (h : Inline v v') : StepField Inline "run" v v'

/-- A short form is spelled out in a field of a process of a class. -/
inductive ProcessField (Inline : Value → Value → Prop) :
    ClassTag → String → Value → Value → Prop
  | keyed {tag : ClassTag} {k : String} {v v' : Value} (hk : k ∈ Normal.mapFields tag)
      (h : Keyed "type" v v') : ProcessField Inline tag k v v'
  | single {tag : ClassTag} {k : String} {v v' : Value} (h : Single k v v') :
      ProcessField Inline tag k v v'
  | input {tag : ClassTag} {v v' : Value} (h : InRecord "type" ParameterField v v') :
      ProcessField Inline tag "inputs" v v'
  | output {tag : ClassTag} {v v' : Value} (h : InRecord "type" ParameterField v v') :
      ProcessField Inline tag "outputs" v v'
  | argument {v v' : Value} (h : InItem (Text "valueFrom") v v') :
      ProcessField Inline .commandLineTool "arguments" v v'
  | step {v v' : Value} (h : InRecord "type" (StepField Inline) v v') :
      ProcessField Inline .workflow "steps" v v'

/-- A short form is spelled out in a document or in an inline process, fewer than `depth` runs
down. -/
def SpellsOutWithin : Nat → Value → Value → Prop
  | 0, _, _ => False
  | depth + 1, doc, doc' => ∃ tag, ClassTag.ofDocument doc = .ok tag ∧
      InEntry (ProcessField (SpellsOutWithin depth) tag) doc doc'

/-- One short form is spelled out in a document. -/
def SpellsOut (doc doc' : Value) : Prop := ∃ depth, SpellsOutWithin depth doc doc'

/-- Documents that differ in their short forms. -/
def Equivalent : Value → Value → Prop := Relation.EqvGen SpellsOut

/-! ## Rewrites -/

/-- A rewrite of the items that does not see a change. -/
theorem InItem.onItems_eq (h : InItem R v v') {f : Value → Value}
    (hf : ∀ {v v'}, R v v' → f v = f v') : onItems f v = onItems f v' := by
  obtain ⟨before, after, h⟩ := h
  simp [onItems, hf h]

/-- A rewrite of the entries that does not see a change. -/
theorem InEntry.onEntries_eq (h : InEntry F v v') {f : String → Value → Value}
    (hf : ∀ {k v v'}, F k v v' → f k v = f k v') :
    onEntries (Entries.mapWithKey f) v = onEntries (Entries.mapWithKey f) v' := by
  obtain ⟨before, after, h⟩ := h
  simp [onEntries, hf h]

/-- It is a mapping where an entry changes. -/
theorem InEntry.exists_mappings (h : InEntry F v v') :
    ∃ es es', v = .mapping es ∧ v' = .mapping es' := by
  obtain ⟨before, after, h⟩ := h
  exact ⟨_, _, rfl, rfl⟩

/-- The entries of a mapping become the same if the change of one of them is not seen. -/
theorem InEntry.becomes_iff {es es' ws : Mapping}
    (h : InEntry F (.mapping es) (.mapping es')) {f : String → Value → Except LoadError Value}
    (hf : ∀ {k v v'}, F k v v' → (f k v).toOption = (f k v').toOption) :
    Entries.Becomes f es ws ↔ Entries.Becomes f es' ws := by
  obtain ⟨before, after, h⟩ := h
  refine forall₂_replace_iff (fun w => ?_) before after
  rw [toOption_eq_toOption_iff.mp (hf h) w.2]

/-- A change of a keyed record is a change of the listed one, unless it is lost. -/
theorem InEntry.keyedEntry (tag id : String) (h : InEntry F v v') :
    keyedEntry tag id v = keyedEntry tag id v' ∨
      InEntry F (keyedEntry tag id v) (keyedEntry tag id v') := by
  obtain @⟨before, after, k, w, w', h⟩ := h
  by_cases hk : k = "id"
  · exact .inl (by simp [Rewrite.keyedEntry, hk])
  · right
    simpa [Rewrite.keyedEntry, hk] using
      InEntry.intro (("id", .string id) :: Entries.erase before "id") (Entries.erase after "id") h

/-- A change of a record is a change in the list of records, unless it is lost. -/
theorem InRecord.listOfMap {tag : String} (htag : tag ≠ "id") (h : InRecord tag F v v') :
    listOfMap tag v = listOfMap tag v' ∨
      InItem (InEntry F) (listOfMap tag v) (listOfMap tag v') := by
  cases h with
  | listed h =>
    obtain ⟨before, after, h⟩ := h
    exact .inr (.intro before after h)
  | keyed before after id h =>
    simp only [Rewrite.listOfMap, List.map_append, List.map_cons]
    rcases h.keyedEntry tag id with heq | h
    · exact .inl (by rw [heq])
    · exact .inr (.intro _ _ h)
  | alone before after id hv hv' h =>
    simp only [Rewrite.listOfMap, List.map_append, List.map_cons, keyedEntry_alone htag id hv,
      keyedEntry_alone htag id hv']
    exact .inr (.intro _ _ (.intro [_] [] h))

/-- A rewrite of records that does not see a change of one. -/
theorem InRecord.onItems_eq {tag : String} (h : InRecord tag F v v') (htag : tag ≠ "id")
    {f : Value → Value} (hf : ∀ {v v'}, InEntry F v v' → f v = f v') :
    onItems f (Rewrite.listOfMap tag v) = onItems f (Rewrite.listOfMap tag v') := by
  rcases h.listOfMap htag with heq | h
  · rw [heq]
  · exact h.onItems_eq hf

/-- The list of a value that is spelled out. -/
theorem Single.listOfValue_eq {k : String} (h : Single k v v') :
    k ∈ Normal.listFields ∧ listOfValue v = listOfValue v' := by
  cases h with
  | null hk => exact ⟨hk, rfl⟩
  | value hk hnull hlist =>
    refine ⟨hk, ?_⟩
    cases v with
    | null => exact absurd rfl hnull
    | sequence vs => exact absurd rfl (hlist vs)
    | _ => rfl

/-- Lists are forced on a value that is spelled out. -/
theorem forceList_eq (h : InEntry Single v v') :
    onEntries (forceList Normal.listFields) v = onEntries (forceList Normal.listFields) v' := by
  refine h.onEntries_eq fun h => ?_
  obtain ⟨hk, heq⟩ := h.listOfValue_eq
  simp only [if_pos hk, heq]

/-- The record of what a map has under an id. -/
theorem KeyedEntry.keyedEntry_eq {tag id : String} (htag : tag ≠ "id")
    (h : KeyedEntry tag id v v') : Rewrite.keyedEntry tag id v = v' := by
  cases h with
  | record es => rfl
  | alone hv => exact keyedEntry_alone htag id hv

/-- The list of a map that is spelled out. -/
theorem Keyed.listOfMap_eq {tag : String} (htag : tag ≠ "id") (h : Keyed tag v v') :
    listOfMap tag v = v' ∧ listOfMap tag v' = v' := by
  obtain ⟨h⟩ := h
  refine ⟨?_, rfl⟩
  have hmap := List.forall₂_map_left_iff.mpr (h.imp fun _ _ h => h.keyedEntry_eq htag)
  rw [List.forall₂_eq_eq_eq] at hmap
  rw [listOfMap, hmap]

/-! ## Parameters -/

/-- A field of a parameter has one normal form, whether it is spelled out or not. -/
theorem parameterField_eq (isInput : Bool) {k : String} (h : ParameterField k v v') :
    Normal.parameterField isInput k v = Normal.parameterField isInput k v' := by
  cases h with
  | single h =>
    obtain ⟨hk, heq⟩ := h.listOfValue_eq
    rw [Normal.parameterField_of_mem_listFields isInput v hk,
      Normal.parameterField_of_mem_listFields isInput v' hk, heq]
  | type ht h =>
    have htype : tagType v = tagType v' := by
      rw [tagType, tagType, ← TypeExpr.resolve_eq_of_spellsOut h, ht]
    rw [Normal.parameterField_type, Normal.parameterField_type, htype]
  | outputBinding h =>
    rw [Normal.parameterField_outputBinding, Normal.parameterField_outputBinding, forceList_eq h]

/-- A parameter has one normal form, whether it is spelled out or not. -/
theorem parameter_eq (isInput : Bool) (h : InEntry ParameterField v v') :
    Normal.parameter isInput v = Normal.parameter isInput v' := by
  have heq := h.onEntries_eq (parameterField_eq isInput)
  obtain ⟨before, after, h⟩ := h
  rwa [Normal.parameter_mapping, Normal.parameter_mapping]

/-! ## Steps -/

variable {Inline : Value → Value → Prop}

/-- Changes of inline processes that keep their classes and their normal forms. -/
def Transparent (Inline : Value → Value → Prop) : Prop :=
  ∀ v v', Inline v v' → ∃ tag, ClassTag.ofDocument v = .ok tag ∧ ClassTag.ofDocument v' = .ok tag ∧
    (Normal.tree v).toOption = (Normal.tree v').toOption

/-- The inputs of a step have one normal form, whether they are spelled out or not. -/
theorem stepField_input (h : InRecord "source" Single v v') :
    Normal.stepField "in" v = Normal.stepField "in" v' := by
  rw [Normal.stepField_in, Normal.stepField_in, h.onItems_eq (by decide) forceList_eq]

/-- The outputs of a step have one normal form, whether they are spelled out or not. -/
theorem stepField_output (h : InItem (Text "id") v v') :
    Normal.stepField "out" v = Normal.stepField "out" v' := by
  have houtput : ∀ {v v'}, Text "id" v v' → Normal.stepOutput v = Normal.stepOutput v'
    | _, _, .intro _ => rfl
  rw [Normal.stepField_out, Normal.stepField_out, h.onItems_eq houtput]

/-- An inline process is boxed by its class. -/
theorem boxRun_eq_map {tag : ClassTag} (h : ClassTag.ofDocument v = .ok tag)
    (normal : Except LoadError Value) :
    Normal.boxRun v normal = normal.map (.tagged tag.arm) := by
  have hclass := ClassTag.ofDocument_eq_ok_iff.mp h
  cases v with
  | mapping es =>
    have hcontains : Entries.contains es "class" := by
      rw [Value.get?_mapping] at hclass
      simp [Entries.contains, hclass]
    rw [Normal.boxRun, if_pos hcontains, h]
    cases normal <;> rfl
  | _ => cases hclass

/-- What a step runs has one normal form, whether it is spelled out or not. -/
theorem normalStepField_run (hInline : Transparent Inline) (h : Inline v v') :
    (Normal.normalStepField "run" v).toOption = (Normal.normalStepField "run" v').toOption := by
  obtain ⟨tag, hclass, hclass', htree⟩ := hInline v v' h
  simp only [Normal.normalStepField, Normal.boxedField, if_true, boxRun_eq_map hclass,
    boxRun_eq_map hclass', toOption_map, htree]

/-- A field of a step has one normal form, whether it is spelled out or not. -/
theorem normalStepField_eq (hInline : Transparent Inline) {k : String}
    (h : StepField Inline k v v') :
    (Normal.normalStepField k v).toOption = (Normal.normalStepField k v').toOption := by
  -- What is not a run is not boxed, and so it suffices to look at the other rewrites.
  have hother (hk : k ≠ "run") (heq : Normal.stepField k v = Normal.stepField k v') :
      (Normal.normalStepField k v).toOption = (Normal.normalStepField k v').toOption := by
    rw [Normal.normalStepField_eq_stepField hk, Normal.normalStepField_eq_stepField hk, heq]
  cases h with
  | keyed hk h =>
    obtain ⟨hlist, hlist'⟩ := h.listOfMap_eq (by decide)
    refine hother (ne_of_mem_of_not_mem hk (by decide)) ?_
    rw [Normal.stepField_of_mem_stepMapFields v hk, Normal.stepField_of_mem_stepMapFields v' hk,
      hlist, hlist']
  | inputs h =>
    obtain ⟨hlist, hlist'⟩ := h.listOfMap_eq (by decide)
    refine hother (by decide) ?_
    rw [Normal.stepField_in, Normal.stepField_in, hlist, hlist']
  | input h => exact hother (by decide) (stepField_input h)
  | output h => exact hother (by decide) (stepField_output h)
  | single h =>
    obtain ⟨hk, hlist⟩ := h.listOfValue_eq
    refine hother (ne_of_mem_of_not_mem hk (by decide)) ?_
    rw [Normal.stepField_of_mem_listFields v hk, Normal.stepField_of_mem_listFields v' hk, hlist]
  | path h =>
    obtain ⟨s⟩ := h
    rfl
  | inline h => exact normalStepField_run hInline h

/-- A step has one normal form, whether it is spelled out or not. -/
theorem normalStep_eq (hInline : Transparent Inline) (h : InEntry (StepField Inline) v v') :
    (Normal.normalStep v).toOption = (Normal.normalStep v').toOption := by
  refine toOption_eq_toOption_iff.mpr fun w => ?_
  obtain ⟨es, es', rfl, rfl⟩ := h.exists_mappings
  simp only [Normal.normalStep_eq_ok_iff, h.becomes_iff (normalStepField_eq hInline)]

/-! ## Processes -/

/-- The parameters of a process have one normal form, whether they are spelled out or not. -/
theorem parameters_eq (isInput : Bool) (h : InRecord "type" ParameterField v v') :
    onItems (Normal.parameter isInput) (listOfMap "type" v) =
      onItems (Normal.parameter isInput) (listOfMap "type" v') :=
  h.onItems_eq (by decide) (parameter_eq isInput)

/-- The steps of a workflow have one normal form, whether they are spelled out or not. -/
theorem normalField_steps (hInline : Transparent Inline)
    (h : InRecord "type" (StepField Inline) v v') :
    (Normal.normalField .workflow "steps" v).toOption =
      (Normal.normalField .workflow "steps" v').toOption := by
  refine toOption_eq_toOption_iff.mpr fun w => ?_
  -- The steps are compared as lists.
  rw [← Normal.normalField_steps_listOfMap, ← Normal.normalField_steps_listOfMap (v := v')]
  rcases h.listOfMap (by decide) with heq | h
  · rw [heq]
  · generalize listOfMap "type" v = list, listOfMap "type" v' = list' at h
    obtain ⟨before, after, h⟩ := h
    have hstep := toOption_eq_toOption_iff.mp (normalStep_eq hInline h)
    simp only [Normal.normalField_steps_sequence,
      forall₂_replace_iff (R := fun v w => Normal.normalStep v = .ok w) hstep]

/-- A field of a process has one normal form, whether it is spelled out or not. -/
theorem normalField_eq (hInline : Transparent Inline) {tag : ClassTag} {k : String}
    (h : ProcessField Inline tag k v v') :
    (Normal.normalField tag k v).toOption = (Normal.normalField tag k v').toOption := by
  -- What is not a step is not boxed, and so it suffices to look at the other rewrites.
  have hother (hk : ¬(tag = .workflow ∧ k = "steps"))
      (heq : Normal.field tag k v = Normal.field tag k v') :
      (Normal.normalField tag k v).toOption = (Normal.normalField tag k v').toOption := by
    rw [Normal.normalField_eq_field hk, Normal.normalField_eq_field hk, heq]
  cases h with
  | keyed hk h =>
    obtain ⟨hlist, hlist'⟩ := h.listOfMap_eq (by decide)
    by_cases hsteps : tag = .workflow ∧ k = "steps"
    · obtain ⟨rfl, rfl⟩ := hsteps
      refine toOption_eq_toOption_iff.mpr fun w => ?_
      rw [← Normal.normalField_steps_listOfMap, hlist]
    · refine hother hsteps ?_
      simp only [Normal.field, if_pos hk, hlist, hlist']
  | single h =>
    obtain ⟨hk, hlist⟩ := h.listOfValue_eq
    refine hother (fun hsteps => ne_of_mem_of_not_mem hk (by decide) hsteps.2) ?_
    rw [Normal.field_of_mem_listFields tag v hk, Normal.field_of_mem_listFields tag v' hk, hlist]
  | input h =>
    refine hother (by simp) ?_
    rw [Normal.field_inputs, Normal.field_inputs, parameters_eq true h]
  | output h =>
    refine hother (by simp) ?_
    rw [Normal.field_outputs, Normal.field_outputs, parameters_eq false h]
  | argument h =>
    have hargument {v v' : Value} (h : Text "valueFrom" v v') :
        Normal.argument v = Normal.argument v' := by
      cases h
      rfl
    refine hother (by simp) ?_
    rw [Normal.field_arguments, Normal.field_arguments, h.onItems_eq hargument]
  | step h => exact normalField_steps hInline h

/-- No short form is under the key of a class. -/
theorem ProcessField.ne_class {tag : ClassTag} {k : String} (h : ProcessField Inline tag k v v') :
    k ≠ "class" := by
  cases h with
  | keyed hk h =>
    refine ne_of_mem_of_not_mem hk ?_
    cases tag <;> decide
  | single h => exact ne_of_mem_of_not_mem h.listOfValue_eq.1 (by decide)
  | _ => decide

/-- A process has one class and one normal form, whether it is spelled out or not. -/
theorem tree_eq (hInline : Transparent Inline) {tag : ClassTag}
    (hclass : ClassTag.ofDocument v = .ok tag) (h : InEntry (ProcessField Inline tag) v v') :
    ClassTag.ofDocument v' = .ok tag ∧
      (Normal.tree v).toOption = (Normal.tree v').toOption := by
  have hclass' : ClassTag.ofDocument v' = .ok tag := by
    rw [ClassTag.ofDocument_eq_ok_iff] at hclass ⊢
    obtain ⟨before, after, h⟩ := h
    simpa [Entries.get?_cons, h.ne_class] using hclass
  refine ⟨hclass', toOption_eq_toOption_iff.mpr fun w => ?_⟩
  obtain ⟨es, es', rfl, rfl⟩ := h.exists_mappings
  simp [Normal.tree_eq_ok_iff, hclass, hclass', h.becomes_iff (normalField_eq hInline)]

/-! ## Documents -/

/-- Short forms in a document and in its inline processes, however deep, are transparent. -/
theorem transparent_spellsOutWithin (depth : Nat) : Transparent (SpellsOutWithin depth) := by
  induction depth with
  | zero => exact fun _ _ h => h.elim
  | succ depth ih =>
    rintro v v' ⟨tag, hclass, h⟩
    exact ⟨tag, hclass, tree_eq ih hclass h⟩

/-- Documents that differ in their short forms have the same normal form, or none. -/
theorem Equivalent.toOption_tree_eq {doc doc' : Value} (h : Equivalent doc doc') :
    (Normal.tree doc).toOption = (Normal.tree doc').toOption := by
  induction h with
  | rel doc doc' h =>
    obtain ⟨depth, h⟩ := h
    obtain ⟨tag, -, -, heq⟩ := transparent_spellsOutWithin depth doc doc' h
    exact heq
  | refl doc => rfl
  | symm doc doc' _ ih => exact ih.symm
  | trans doc doc' doc'' _ _ ih ih' => exact ih.trans ih'

/-- The normal form of a document is the normal form of every document that differs from it in
short forms. -/
theorem tree_eq_ok_of_equivalent {doc doc' tree : Value} (h : Equivalent doc doc')
    (htree : Normal.tree doc = .ok tree) : Normal.tree doc' = .ok tree :=
  (toOption_eq_toOption_iff.mp h.toOption_tree_eq tree).mp htree

/-- A workflow with one step, which runs an expression tool with these inputs inline. -/
def flowWith (inputs : Value) : Value :=
  .mapping [("class", .string "Workflow"), ("steps", .sequence [.mapping [("id", .string "only"),
    ("run", .mapping [("class", .string "ExpressionTool"), ("inputs", inputs)])]])]

/-- A short form in the inputs of the expression tool is one in the workflow. -/
theorem spellsOut_flowWith
    (h : ∀ {Inline}, ProcessField Inline .expressionTool "inputs" v v') :
    SpellsOut (flowWith v) (flowWith v') := by
  have hrun : SpellsOutWithin 1 (.mapping [("class", .string "ExpressionTool"), ("inputs", v)])
      (.mapping [("class", .string "ExpressionTool"), ("inputs", v')]) :=
    ⟨.expressionTool, rfl, .intro [_] [] h⟩
  exact ⟨2, .workflow, rfl, .intro [_] []
    (.step (.listed (.intro [] [] (.intro [_] [] (.inline hrun)))))⟩

/-- The input of the expression tool is keyed by its id, and its type is a short notation. -/
def shortFlow : Value := flowWith (.mapping [("n", .string "int?")])

/-- The input of the expression tool is listed, and its type is spelled out. -/
def longFlow : Value :=
  flowWith (.sequence [.mapping [("id", .string "n"),
    ("type", .sequence [.string "null", .string "int"])]])

/-- Both forms of the workflow have the normal form of the short one. -/
theorem tree_eq_ok_of_equivalent_flow :
    Equivalent shortFlow longFlow ∧
      ∃ tree, Normal.tree shortFlow = .ok tree ∧ Normal.tree longFlow = .ok tree := by
  -- The map becomes a list first, and then the type of the listed input is spelled out.
  have hlist : SpellsOut shortFlow (flowWith (.sequence [.mapping [("id", .string "n"),
      ("type", .string "int?")]])) :=
    spellsOut_flowWith (.keyed (by decide) (.intro (.cons (.alone rfl) .nil)))
  have htype : SpellsOut (flowWith (.sequence [.mapping [("id", .string "n"),
      ("type", .string "int?")]])) longFlow :=
    spellsOut_flowWith
      (.input (.listed (.intro [] [] (.intro [_] [] (.type rfl (.optional "int"))))))
  have h : Equivalent shortFlow longFlow := .trans _ _ _ (.rel _ _ hlist) (.rel _ _ htype)
  exact ⟨h, _, rfl, tree_eq_ok_of_equivalent h rfl⟩

end ShortForm

end CanonicalCwl
