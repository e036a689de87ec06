import CanonicalCwl.Proofs.Process.Frame
import CanonicalCwl.Proofs.Shape.Tidy
import CanonicalCwl.Proofs.TypeExpr.Fields

/-!
# The Types of Parameters

Which types a parameter may have, in a document and in the processes that its steps run inline, and
what becomes of them. A notation of a type is what it stands for, and any other node is read as the
tagged tree of a type; a document with a type that is neither has no canonical process.

- `TypeExpr.TypeRead`: the type of a parameter, from the node that is there for it.
- `Normal.InlineAt`: a process that a document runs inline.
- `Normal.typeRead_of_process`: every parameter has the type that is there for it.
-/

namespace CanonicalCwl

open Result Shape Rewrite

/-! ## Types that are read -/

namespace TypeExpr

/-- The type of a parameter, from the node that is there for it. -/
structure TypeRead (context : String) (raw : Option Value) (type : Option TypeExpr) : Prop where
  /-- There is no type exactly if no node is there or null. -/
  absent : type = none ↔ raw = none ∨ raw = some .null
  /-- The notation of a type is what it stands for, where a null default of a field is none. -/
  resolved : ∀ v t, raw = some v → resolve context v = .ok t → type = some t.dropNullDefaults
  /-- Any other node is read as the tagged tree of a type. -/
  decoded : ∀ v, raw = some v → v ≠ .null → (∀ t, resolve context v ≠ .ok t) →
    ∃ t, decode v = .ok t ∧ type = some t

variable {context : String} {v : Value} {t : TypeExpr}

theorem typeRead_none (context : String) : TypeRead context none none where
  absent := by simp
  resolved _ _ h := nomatch h
  decoded _ h := nomatch h

theorem typeRead_null (context : String) : TypeRead context (some .null) none where
  absent := by simp
  resolved v t h ht := by
    obtain rfl := Option.some.inj h
    cases ht
  decoded v h hv := absurd (Option.some.inj h).symm hv

/-- Which type a notation stands for does not depend on the context. -/
theorem typeRead_of_resolve (context : String) (h : resolve "" v = .ok t) :
    TypeRead context (some v) (some t.dropNullDefaults) where
  absent := by
    have hnull : v ≠ .null := by
      rintro rfl
      cases h
    simp [hnull]
  resolved v' t' hv ht := by
    obtain rfl := Option.some.inj hv
    have hsame := h.symm.trans (resolve_of_resolve "" ht)
    rw [Except.ok.inj hsame]
  decoded v' hv _ hnone := by
    obtain rfl := Option.some.inj hv
    exact absurd (resolve_of_resolve context h) (hnone t)

theorem typeRead_of_decode (context : String) (hnull : v ≠ .null)
    (hnone : ∀ t, resolve "" v ≠ .ok t) (h : decode v = .ok t) :
    TypeRead context (some v) (some t) where
  absent := by simp [hnull]
  resolved v' t' hv ht := by
    obtain rfl := Option.some.inj hv
    exact absurd (resolve_of_resolve "" ht) (hnone t')
  decoded v' hv _ _ := by
    obtain rfl := Option.some.inj hv
    exact ⟨t, h, rfl⟩

/-- The type of a record is read from what the node that is there was turned into. -/
theorem typeRead_of_read_record {r : RecordKind} {es fs : Mapping} {raw : Option Value}
    (hes : Entries.Distinct es) (h : (Shape.record r).read (.mapping es) = .ok (.mapping fs))
    (hslot : .optional "type" (.choice .type) ∈ r.slots)
    (hraw : Entries.get? es "type" = raw.map tagType) (context : String) :
    TypeRead context raw ((Entries.get? fs "type").map ofTree) := by
  have habsent (hnull : ∀ v, Entries.get? es "type" = some v → v = .null) :
      Entries.get? fs "type" = none := get?_eq_none_of_read_record hes h hslot rfl hnull
  have hpresent {v : Value} (hv : Entries.get? es "type" = some v) (hnull : v ≠ .null) :
      ∃ w, (Shape.choice .type).read v = .ok w ∧ Entries.get? fs "type" = some w :=
    exists_get?_of_read_record h hslot hv (by cases v <;> first | rfl | exact absurd rfl hnull)
  cases raw with
  | none =>
    rw [habsent (by simp [hraw])]
    exact typeRead_none context
  | some v =>
    cases hresolve : resolve "" v with
    | ok t =>
      -- The tree of the type is read as the tree of the type without null defaults.
      have htag : tagType v = t.toTree := by rw [tagType, hresolve]
      have hnull : t.toTree ≠ .null := by cases t <;> simp [toTree, Value.tagged]
      obtain ⟨w, hw, hget⟩ := hpresent (hraw.trans (congrArg some htag)) hnull
      rw [read_toTree_eq] at hw
      obtain rfl := Except.ok.inj hw
      rw [hget, Option.map_some, ofTree_toTree]
      exact typeRead_of_resolve context hresolve
    | error d =>
      have htag : tagType v = v := by rw [tagType, hresolve]
      rw [Option.map_some, htag] at hraw
      by_cases hnull : v = .null
      · subst hnull
        rw [habsent (by simp [hraw])]
        exact typeRead_null context
      · obtain ⟨w, hw, hget⟩ := hpresent hraw hnull
        rw [hget, Option.map_some]
        refine typeRead_of_decode context hnull (by simp [hresolve]) ?_
        rw [decode, hw, Except.map]

end TypeExpr

/-! ## Parameters and inline processes -/

/-- The process that is run in place by the step at a place, and so on along the places. -/
def ProcessOf.inlineAt? : Process → List ℕ → Option Process
  | p, [] => some p
  | p, i :: path => do
      let w ← p.workflow?
      let s ← w.steps[i]?
      let q ← s.run.process?
      q.inlineAt? path

/-- The types of the inputs or of the outputs, in order. -/
def Header.parameterTypes (isInput : Bool) (h : Header) : List (Option TypeExpr) :=
  if isInput then h.inputs.map (·.type) else h.outputs.map (·.type)

namespace Normal

/-- The key of the inputs or of the outputs. -/
def parameterKey (isInput : Bool) : String := if isInput then "inputs" else "outputs"

/-- The record of an input or of an output. -/
def parameterRecord (isInput : Bool) : RecordKind :=
  if isInput then .inputParameter else .outputParameter

/-- The second document is run inline by the first one, by the steps at some places: the last of
them runs it, and the others run the workflows around it. -/
inductive InlineAt : Value → List ℕ → Value → Prop
  | here (doc : Value) : InlineAt doc [] doc
  | step {doc s run sub : Value} {i : ℕ} {path : List ℕ}
      (hclass : ClassTag.ofDocument doc = .ok .workflow)
      (hstep : (doc.recordsAt "steps")[i]? = some s) (hrun : s.get? "run" = some run)
      (hinline : run.get? "class" ≠ none) (h : InlineAt run path sub) :
      InlineAt doc (i :: path) sub

variable {doc sub : Value} {p : Process} {path : List ℕ} {i : ℕ}

/-- What a well-formed document runs inline is well-formed. -/
theorem InlineAt.wellFormed (h : InlineAt doc path sub) (hdoc : doc.WellFormed) :
    sub.WellFormed := by
  induction h with
  | here => exact hdoc
  | step _ hstep hrun _ _ ih => exact ih ((hdoc.of_getElem?_recordsAt hstep).get? hrun)

/-- The types of parameters are under their keys. -/
theorem parameterTypes_ofTree (tag : ClassTag) (isInput : Bool) (v : Value) :
    (ProcessOf.ofTree tag v).header.parameterTypes isInput =
      (v.itemsAt (parameterKey isInput)).map fun v => (v.get? "type").map TypeExpr.ofTree := by
  have hheader : (ProcessOf.ofTree tag v).header = Header.ofTree v := by cases tag <;> rfl
  rw [hheader]
  cases isInput <;> simp [Header.parameterTypes, Header.ofTree, parameterKey, Function.comp_def,
    InputParameter.ofTree, OutputParameter.ofTree]

/-- A field of a process is read from the normal form of the one that is there. -/
theorem exists_field_of_process (h : process doc = .ok p) {key : String} {v : Value}
    (hv : doc.get? key = some v) :
    ∃ tag ws fs w, ClassTag.ofDocument doc = .ok tag ∧ normalField tag key v = .ok w ∧
      Entries.get? ws key = some w ∧
      (record tag.record).read (.mapping ws) = .ok (.mapping fs) ∧
      ProcessOf.ofTree tag (.mapping fs) = p := by
  obtain ⟨tag, w, fs, htag, htree, hread, hp⟩ := process_eq_ok_iff.mp h
  cases doc with
  | mapping es =>
    obtain ⟨tag', htag', ws, hws, rfl⟩ := tree_eq_ok_iff.mp htree
    obtain rfl := Except.ok.inj (htag.symm.trans htag')
    obtain ⟨w, hw, hget⟩ := hws.exists_get? hv
    exact ⟨tag, ws, fs, w, htag, hw, hget, hread, hp⟩
  | _ => cases hv

/-- A parameter of a process is read from the normal form of the one that is there. -/
theorem exists_parameter_of_process (h : process doc = .ok p) {isInput : Bool} {ps : Mapping}
    (hparameter : (doc.recordsAt (parameterKey isInput))[i]? = some (.mapping ps)) :
    ∃ fs, (record (parameterRecord isInput)).read
        (.mapping (Entries.mapWithKey (parameterField isInput) ps)) = .ok (.mapping fs) ∧
      (p.header.parameterTypes isInput)[i]? =
        some ((Entries.get? fs "type").map TypeExpr.ofTree) := by
  obtain ⟨v, vs, hv, hlist, hp⟩ := Value.exists_of_getElem?_recordsAt hparameter
  obtain ⟨tag, ws, fs, w, -, hw, hget, hread, rfl⟩ := exists_field_of_process h hv
  have hfield : field tag (parameterKey isInput) v = .sequence (vs.map (parameter isInput)) := by
    cases isInput
    · rw [parameterKey, if_neg Bool.false_ne_true, field_outputs, hlist, onItems]
    · rw [parameterKey, if_pos rfl, field_inputs, hlist, onItems]
  have hsteps : parameterKey isInput ≠ "steps" := by cases isInput <;> decide
  rw [normalField_eq_field (fun h => hsteps h.2), hfield] at hw
  obtain rfl := Except.ok.inj hw
  have hslot : .list (parameterKey isInput) (.record (parameterRecord isInput)) ∈
      tag.record.slots := by
    cases tag <;> cases isInput <;>
      simp [ClassTag.record, RecordKind.slots, RecordKind.headerSlots, parameterKey,
        parameterRecord]
  have hitems := forall₂_itemsAt_of_read_record hread hslot hget
  rw [List.forall₂_map_left_iff] at hitems
  obtain ⟨u, hu, hread⟩ := exists_getElem?_right hitems hp
  obtain ⟨fs', rfl, -⟩ := get?_of_read_record hread
  rw [parameter_mapping] at hread
  refine ⟨fs', hread, ?_⟩
  rw [parameterTypes_ofTree, List.getElem?_map, hu]
  rfl

/-- A step of a workflow is read from the normal form of the one that is there. -/
theorem exists_step_of_process (h : process doc = .ok p)
    (hclass : ClassTag.ofDocument doc = .ok .workflow) {s : Value}
    (hstep : (doc.recordsAt "steps")[i]? = some s) :
    ∃ u fs w, normalStep s = .ok u ∧ (record .step).read u = .ok (.mapping fs) ∧
      p = .workflow w ∧
      w.steps[i]? = some (StepOf.ofTreeWith (.mapping fs) (Run.runIn fs)) := by
  obtain ⟨v, vs, hv, hlist, hs⟩ := Value.exists_of_getElem?_recordsAt hstep
  obtain ⟨tag, ws, fs, w, htag, hw, hget, hread, rfl⟩ := exists_field_of_process h hv
  obtain rfl := Except.ok.inj (hclass.symm.trans htag)
  rw [← normalField_steps_listOfMap, hlist, normalField_steps_sequence] at hw
  obtain ⟨us, hus, rfl⟩ := hw
  have hslot : .list "steps" (.record .step) ∈ ClassTag.workflow.record.slots := by
    simp [ClassTag.record, RecordKind.slots]
  have hitems := forall₂_itemsAt_of_read_record hread hslot hget
  -- Only mappings are taken for steps, and all that was read as a step is one.
  have hmappings : ∀ x ∈ (Value.mapping fs).itemsAt "steps", ∃ es, x = .mapping es := by
    intro x hx
    obtain ⟨u, -, hread⟩ := exists_of_mem_right hitems hx
    obtain ⟨es, rfl, -⟩ := get?_of_read_record hread
    exact ⟨es, rfl⟩
  obtain ⟨u, hu, hnormal⟩ := exists_getElem?_right hus hs
  obtain ⟨x, hx, hread⟩ := exists_getElem?_right hitems hu
  obtain ⟨fs', rfl, -⟩ := get?_of_read_record hread
  refine ⟨u, fs', _, hnormal, hread, rfl, ?_⟩
  rw [WorkflowOf.ofTree, Value.mapping?_mapping, Option.getD_some, Run.stepsIn_eq_stepsOfTrees]
  exact Run.getElem?_stepsOfTrees hmappings hx

/-- What a step runs under the tag of a class is read by the record of the class. -/
theorem exists_of_read_run {tag : ClassTag} {v w : Value}
    (h : (choice .run).read (.tagged tag.arm v) = .ok w) :
    ∃ fs, (record tag.record).read v = .ok (.mapping fs) ∧ w = .tagged tag.arm (.mapping fs) := by
  obtain ⟨arm, s, u, u', heq, hs, hu, rfl⟩ := read_choice_eq_ok_iff.mp h
  simp only [Value.tagged, Value.mapping.injEq, List.cons.injEq, Prod.mk.injEq, and_true] at heq
  obtain ⟨rfl, rfl⟩ := heq
  have harm : Entries.get? (ChoiceKind.arms .run) tag.arm = some (.record tag.record) := by
    cases tag <;> rfl
  obtain rfl := Option.some.inj (harm.symm.trans hs)
  obtain ⟨fs, rfl, -⟩ := get?_of_read_record hu
  exact ⟨fs, hu, rfl⟩

/-- The process that a step runs inline is the one of the document that is there. -/
theorem exists_process_of_step {s u run : Value} {fs : Mapping} (h : normalStep s = .ok u)
    (hread : (record .step).read u = .ok (.mapping fs)) (hrun : s.get? "run" = some run)
    (hinline : run.get? "class" ≠ none) : ∃ q, process run = .ok q ∧ Run.runIn fs = .inline q := by
  cases s with
  | mapping es =>
    obtain ⟨ws, hws, rfl⟩ := normalStep_eq_ok_iff.mp h
    obtain ⟨w, hw, hget⟩ := hws.exists_get? hrun
    rw [normalStepField, boxedField, if_pos rfl, map_eq_ok_iff] at hw
    obtain ⟨b, hb, rfl⟩ := hw
    rw [stepField_eq_self b (by decide)] at hget
    have hslot : .required "run" (.choice .run) ∈ RecordKind.slots .step := by
      simp [RecordKind.slots]
    obtain ⟨w, hw, hget⟩ := exists_get?_of_read_record hread hslot hget rfl
    cases Rewritten.run_of_boxRun hb with
    | path => exact absurd rfl hinline
    | other hstring hclass => exact absurd hclass hinline
    | inline hclass htree =>
      obtain ⟨gs, hgs, rfl⟩ := exists_of_read_run hw
      refine ⟨_, process_eq_ok_iff.mpr ⟨_, _, gs, hclass, htree, hgs, rfl⟩, ?_⟩
      rw [Run.runIn_eq, show Entries.get? fs "run" = _ from hget]
      exact ProcessOf.run_ofTree_tagged _ gs
  | _ => cases hrun

/-- The processes that are run inline are those of the documents that are there. -/
theorem exists_inlineAt_of_process (hsub : InlineAt doc path sub) (h : process doc = .ok p) :
    ∃ q, process sub = .ok q ∧ p.inlineAt? path = some q := by
  induction hsub generalizing p with
  | here => exact ⟨p, h, rfl⟩
  | step hclass hstep hrun hinline _ ih =>
    obtain ⟨u, fs, w, hu, hread, rfl, hs⟩ := exists_step_of_process h hclass hstep
    obtain ⟨q, hq, hinline⟩ := exists_process_of_step hu hread hrun hinline
    obtain ⟨r, hr, hpath⟩ := ih hq
    refine ⟨r, hr, ?_⟩
    simp [ProcessOf.inlineAt?, ProcessOf.workflow?, hs, StepOf.ofTreeWith, hinline, Run.process?,
      hpath]

/-- In a document that has a canonical process, and in the processes that it runs inline, every
parameter has the type that is there for it. A document has none with a type that is neither a
notation nor the tagged tree of a type. -/
theorem typeRead_of_process (hdoc : doc.WellFormed) (hsub : InlineAt doc path sub) {isInput : Bool}
    {ps : Mapping} (hparameter : (sub.recordsAt (parameterKey isInput))[i]? = some (.mapping ps))
    (context : String) :
    (∀ p, process doc = .ok p → ∃ q type, p.inlineAt? path = some q ∧
      (q.header.parameterTypes isInput)[i]? = some type ∧
      TypeExpr.TypeRead context (Entries.get? ps "type") type) ∧
    (∀ v, Entries.get? ps "type" = some v → v ≠ .null →
      (∀ t, TypeExpr.resolve context v ≠ .ok t) → (∀ t, TypeExpr.decode v ≠ .ok t) →
      ∃ e, process doc = .error e) := by
  have hps : Entries.Distinct ps := by
    have hwell := (hsub.wellFormed hdoc).of_getElem?_recordsAt hparameter
    rw [Value.WellFormed] at hwell
    exact hwell.1
  have hread (p : Process) (h : process doc = .ok p) : ∃ q type, p.inlineAt? path = some q ∧
      (q.header.parameterTypes isInput)[i]? = some type ∧
      TypeExpr.TypeRead context (Entries.get? ps "type") type := by
    obtain ⟨q, hq, hpath⟩ := exists_inlineAt_of_process hsub h
    obtain ⟨fs, hfs, htype⟩ := exists_parameter_of_process hq hparameter
    refine ⟨q, _, hpath, htype, TypeExpr.typeRead_of_read_record ?_ hfs ?_ ?_ context⟩
    · rwa [Entries.Distinct, Entries.keys_mapWithKey]
    · cases isInput <;> simp [parameterRecord, RecordKind.slots]
    · rw [Entries.get?_mapWithKey]
      congr 1
      funext v
      exact parameterField_type isInput v
  refine ⟨hread, fun v hv hnull hresolve hdecode => ?_⟩
  -- A canonical process would have a type for the parameter, which could only be decoded.
  cases h : process doc with
  | error e => exact ⟨e, rfl⟩
  | ok p =>
    obtain ⟨q, type, -, -, htype⟩ := hread p h
    obtain ⟨t, ht, -⟩ := htype.decoded v hv hnull hresolve
    exact absurd ht (hdecode t)

/-- An expression tool with an input of this type. -/
def typedTool (type : Value) : Value :=
  .mapping [("class", .string "ExpressionTool"),
    ("inputs", .mapping [("x", .mapping [("type", type)])])]

/-- A workflow with one step, which runs the expression tool inline. -/
def typedFlow (type : Value) : Value :=
  .mapping [("class", .string "Workflow"),
    ("steps", .mapping [("only", .mapping [("run", typedTool type)])])]

/-- A record type with a field whose default is null. -/
def nullDefaultRecord : Value :=
  .mapping [("type", .string "record"), ("fields", .sequence [.mapping [("name", .string "a"),
    ("type", .string "int?"), ("default", .null)]])]

/-- The null default of the record type is gone, and a truth value is no type. -/
theorem typeRead_of_process_typedFlow :
    (∃ p q, process (typedFlow nullDefaultRecord) = .ok p ∧ p.inlineAt? [0] = some q ∧
      (q.header.parameterTypes true)[0]? =
        some (some (.record "" [⟨"a", .optional (.named "int"), [], none⟩]))) ∧
    ∃ e, process (typedFlow (.bool true)) = .error e := by
  have hdoc (type : Value) (h : type.WellFormed) : (typedFlow type).WellFormed := by
    simp [typedFlow, typedTool, Value.WellFormed, Value.WellFormedEntries, Entries.Distinct,
      Entries.keys, h]
  have hrecord : nullDefaultRecord.WellFormed := by
    simp [nullDefaultRecord, Value.WellFormed, Value.WellFormedEntries, Value.WellFormedItems,
      Entries.Distinct, Entries.keys]
  have hsub (type : Value) : InlineAt (typedFlow type) [0] (typedTool type) :=
    .step rfl rfl rfl (by simp [typedTool, Entries.get?_cons]) (.here _)
  have hparameter (type : Value) : ((typedTool type).recordsAt (parameterKey true))[0]? =
      some (.mapping [("id", .string "x"), ("type", type)]) := rfl
  constructor
  · obtain ⟨hread, -⟩ := typeRead_of_process (hdoc _ hrecord) (hsub _) (hparameter _) ""
    have hprocess : process (typedFlow nullDefaultRecord) = .ok _ := rfl
    obtain ⟨q, type, hq, htype, hread⟩ := hread _ hprocess
    obtain rfl := hread.resolved _ _ rfl rfl
    exact ⟨_, q, hprocess, hq, htype⟩
  · obtain ⟨-, hrefused⟩ :=
      typeRead_of_process (hdoc (.bool true) trivial) (hsub _) (hparameter _) ""
    exact hrefused (.bool true) rfl (by simp) (by simp [TypeExpr.resolve])
      (by simp [TypeExpr.decode, Shape.read, Except.map])

end Normal

end CanonicalCwl
