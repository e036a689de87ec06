import CanonicalCwl.Proofs.Process.ParameterType

/-!
# Documents That Have No Normal Form

The tree stage refuses nothing but classes: that of the document itself, or that of a document
that a step runs inline, at any depth. The first one in the order of the steps is reported, with
the document that it stands in as it was written.

- `Value.Misclassed`: the class of a document is not known.
- `Value.inlineRuns`: the documents that the steps of a workflow run inline.
- `Normal.failsOnClass`: when the tree stage fails and with what, and that it keeps the class.
-/

namespace CanonicalCwl

open Result

/-! ## Classes that are not known -/

/-- The document has a class, which is not the name of one. -/
def Value.Misclassed (doc v : Value) : Prop :=
  doc.get? "class" = some v ∧ ∀ tag : ClassTag, v ≠ .string tag.name

namespace ClassTag

/-- The word for what stands in the place of a class. -/
def written : Value → String
  | .string s => s
  | v => "<" ++ v.kind ++ ">"

/-- The error of a document whose class is not known. -/
def unknown (doc v : Value) : LoadError :=
  .conversion
    { target := "ProcessClass",
      mismatch := ⟨[.key "class"], .unknownClass (written v)⟩,
      payload := doc }

/-- A document without a class is refused. -/
theorem ofDocument_of_none {doc : Value} (h : doc.get? "class" = none) :
    ofDocument doc = .error .missingClass := by
  rw [ofDocument.eq_def, h]

/-- A document with a class that is not known is refused with the document. -/
theorem ofDocument_of_misclassed {doc v : Value} (h : doc.Misclassed v) :
    ofDocument doc = .error (unknown doc v) := by
  have hname : ofName? (written v) = none := by
    cases v with
    | string s =>
      rw [Option.eq_none_iff_forall_not_mem]
      intro tag htag
      exact h.2 tag (congrArg Value.string (ofName?_eq_some_iff.mp htag))
    | _ => rfl
  rw [ofDocument.eq_def, h.1]
  cases v <;> simp_all [written, unknown]

/-- A document has no class, one that is not known, or one that is. -/
theorem class_cases (doc : Value) :
    doc.get? "class" = none ∨ (∃ v, doc.Misclassed v) ∨ ∃ tag, ofDocument doc = .ok tag := by
  cases hv : doc.get? "class" with
  | none => exact .inl rfl
  | some v =>
    right
    by_cases h : ∃ tag : ClassTag, v = .string tag.name
    · obtain ⟨tag, rfl⟩ := h
      exact .inr ⟨tag, ofDocument_eq_ok_iff.mpr hv⟩
    · exact .inl ⟨v, hv, fun tag heq => h ⟨tag, heq⟩⟩

end ClassTag

/-! ## Documents that are run inline -/

/-- The document that a step runs inline, as it was written. -/
def Value.inlineRun? (step : Value) : Option Value :=
  (step.get? "run").filter fun run => (run.get? "class").isSome

/-- The documents that the steps of a workflow run inline, in the order of the steps. -/
def Value.inlineRuns (doc : Value) : List Value := (doc.recordsAt "steps").filterMap inlineRun?

namespace Normal

open Rewrite

variable {doc run out v : Value} {es : Mapping}

/-- It makes no difference for what a step runs whether it is keyed. -/
theorem inlineRun?_keyedEntry (id : String) (v : Value) :
    (keyedEntry "type" id v).inlineRun? = v.inlineRun? := by
  by_cases halone : v.mapping? = none
  · rw [keyedEntry_alone (by decide) id halone]
    cases v <;> simp_all [Value.inlineRun?, Value.get?, Entries.get?_cons]
  · cases v with
    | mapping es =>
      simp [keyedEntry, Value.inlineRun?, Value.get?, Entries.get?_cons, Entries.get?_erase]
    | _ => exact absurd rfl halone

/-- Boxing what a step runs fails exactly if it runs a document inline that has no normal form. -/
theorem error?_boxRun (v : Value) :
    error? (boxRun v (tree v)) = if (v.get? "class").isSome then error? (tree v) else none := by
  cases v with
  | mapping es =>
    rw [boxRun, Entries.contains]
    show _ = if (Entries.get? es "class").isSome then _ else _
    split_ifs with hclass
    · -- A class that is not known is what both fail on.
      rw [tree]
      cases ClassTag.ofDocument (.mapping es) with
      | error e => rfl
      | ok tag => exact error?_bind_pure _ _
    · rfl
  | _ => rfl

/-- Boxing a step fails exactly if it runs a document inline that has no normal form. -/
theorem error?_boxStep (hv : v.WellFormed) :
    error? (boxStep v) = v.inlineRun?.bind fun run => error? (tree run) := by
  cases v with
  | mapping es =>
    rw [Value.WellFormed] at hv
    rw [boxStep, error?_bind_pure, Entries.error?_eq_findSome? (by rw [boxField]) boxField_cons]
    have hone (e : String × Value) : error? (boxedField e.1 e.2) =
        if e.1 = "run" then error? (boxRun e.2 (tree e.2)) else none := by
      rw [boxedField]
      split_ifs <;> rfl
    simp only [hone]
    rw [Entries.findSome?_eq_bind_get? hv.1 "run" fun v => error? (boxRun v (tree v))]
    simp only [error?_boxRun]
    rw [Value.inlineRun?, Value.get?]
    cases Entries.get? es "run" with
    | none => rfl
    | some run =>
      rw [Option.filter_some]
      split_ifs with hclass <;> simp [hclass]
  | _ => rfl

/-- Boxing the steps of a workflow fails as the first document does that has no normal form, among
those that they run inline. -/
theorem error?_boxStepsOf (hv : v.WellFormed) :
    error? (boxStepsOf v) =
      (((listOfMap "type" v).sequence?.getD []).filterMap Value.inlineRun?).findSome?
        fun run => error? (tree run) := by
  rw [← List.head?_filterMap, List.filterMap_filterMap]
  cases v with
  | sequence vs =>
    rw [Value.WellFormed, Value.wellFormedItems_iff] at hv
    rw [boxStepsOf, error?_bind_pure, boxItems_eq_mapM, error?_mapM, ← List.head?_filterMap]
    exact congrArg List.head? (List.filterMap_congr fun s hs => error?_boxStep (hv s hs))
  | mapping es =>
    rw [Value.WellFormed, Value.wellFormedEntries_iff] at hv
    rw [boxStepsOf, error?_bind_pure,
      Entries.error?_eq_findSome? (by rw [boxEntries]) fun k v rest => by rw [boxEntries],
      ← List.head?_filterMap, listOfMap, Value.sequence?, Option.getD_some, List.filterMap_map]
    refine congrArg List.head? (List.filterMap_congr fun e he => ?_)
    rw [Function.comp_apply, inlineRun?_keyedEntry, error?_boxStep (hv.2 e he)]
  | _ => rfl

/-- A workflow fails as the first document does that has no normal form, among those that its steps
run inline. -/
theorem error?_tree_of_workflow (hdoc : doc.WellFormed)
    (hclass : ClassTag.ofDocument doc = .ok .workflow) :
    error? (tree doc) = doc.inlineRuns.findSome? fun run => error? (tree run) := by
  cases doc with
  | mapping es =>
    have hone (e : String × Value) : error? (boxedSteps e.1 e.2) =
        if e.1 = "steps" then error? (boxStepsOf e.2) else none := by
      rw [boxedSteps]
      split_ifs <;> rfl
    have hbox : error? (tree (.mapping es)) = error? (boxSteps es) := by
      rw [tree, hclass]
      exact error?_bind_pure _ _
    rw [hbox, Entries.error?_eq_findSome? (by rw [boxSteps]) boxSteps_cons]
    simp only [hone]
    have hdistinct := hdoc
    rw [Value.WellFormed] at hdistinct
    rw [Entries.findSome?_eq_bind_get? hdistinct.1 "steps" fun v => error? (boxStepsOf v),
      Value.inlineRuns, Value.recordsAt, Value.get?_mapping]
    cases hv : Entries.get? es "steps" with
    | none => rfl
    | some v => exact error?_boxStepsOf (hdoc.get? hv)
  | _ => cases hclass

/-- A tool has a normal form. -/
theorem error?_tree_of_tool {tag : ClassTag} (hclass : ClassTag.ofDocument doc = .ok tag)
    (htool : tag ≠ .workflow) : error? (tree doc) = none := by
  cases doc with
  | mapping es =>
    exact error?_eq_none_iff.mpr ⟨_, tree_mapping hclass (if_neg htool)⟩
  | _ => cases hclass

/-- A document whose class is refused is refused for it. -/
theorem tree_eq_of_ofDocument {e : LoadError} (h : ClassTag.ofDocument doc = .error e) :
    tree doc = .error e := by
  cases doc with
  | mapping es =>
    rw [tree, h]
    rfl
  | _ =>
    cases h
    rfl

/-! ## The document at fault -/

/-- What a step of a workflow runs inline is a document with a class. -/
theorem exists_step_of_mem_inlineRuns (h : run ∈ doc.inlineRuns) :
    ∃ s, s ∈ doc.recordsAt "steps" ∧ s.get? "run" = some run ∧ run.get? "class" ≠ none := by
  obtain ⟨s, hs, hrun⟩ := List.mem_filterMap.mp h
  obtain ⟨hrun, hclass⟩ := Option.filter_eq_some_iff.mp hrun
  exact ⟨s, hs, hrun, Option.isSome_iff_ne_none.mp hclass⟩

/-- What is run inline by a document that a workflow runs inline is run inline by the workflow. -/
theorem exists_inlineAt_of_mem_inlineRuns (hclass : ClassTag.ofDocument doc = .ok .workflow)
    (hrun : run ∈ doc.inlineRuns) {path : List ℕ} {inner : Value} (h : InlineAt run path inner) :
    ∃ i, InlineAt doc (i :: path) inner := by
  obtain ⟨s, hs, hget, hinline⟩ := exists_step_of_mem_inlineRuns hrun
  obtain ⟨i, hi⟩ := List.getElem?_of_mem hs
  exact ⟨i, .step hclass hi hget hinline h⟩

/-- What a well-formed document runs inline is well-formed. -/
theorem wellFormed_of_mem_inlineRuns (hdoc : doc.WellFormed) (hrun : run ∈ doc.inlineRuns) :
    run.WellFormed := by
  obtain ⟨s, hs, hget, -⟩ := exists_step_of_mem_inlineRuns hrun
  obtain ⟨i, hi⟩ := List.getElem?_of_mem hs
  exact (hdoc.of_getElem?_recordsAt hi).get? hget

/-- What a document runs inline is smaller than the document. -/
theorem sizeOf_lt_of_mem_inlineRuns (h : run ∈ doc.inlineRuns) : sizeOf run < sizeOf doc := by
  have hstep {s : Value} (hs : s.inlineRun? = some run) : sizeOf run < sizeOf s :=
    Value.sizeOf_lt_of_get? (Option.filter_eq_some_iff.mp hs).1
  obtain ⟨s, hs, hrun⟩ := List.mem_filterMap.mp h
  obtain ⟨i, hi⟩ := List.getElem?_of_mem hs
  obtain ⟨v, vs, hv, hlist, hs⟩ := Value.exists_of_getElem?_recordsAt hi
  refine Nat.lt_trans ?_ (Value.sizeOf_lt_of_get? hv)
  cases v with
  | sequence us =>
    obtain rfl := Value.sequence.inj hlist
    have hmem := List.sizeOf_lt_of_mem (List.mem_of_getElem? hs)
    have hsize := hstep hrun
    simp only [Value.sequence.sizeOf_spec]
    omega
  | mapping es =>
    obtain rfl := Value.sequence.inj hlist
    obtain ⟨⟨id, u⟩, he, rfl⟩ := List.mem_map.mp (List.mem_of_getElem? hs)
    rw [inlineRun?_keyedEntry] at hrun
    have hmem := List.sizeOf_lt_of_mem he
    have hsize := hstep hrun
    simp only [Prod.mk.sizeOf_spec] at hmem
    simp only [Value.mapping.sizeOf_spec]
    omega
  | _ => cases hlist

/-- A document that has no normal form lacks a class, or it is or runs inline a document with a
class that is not known, which is reported. -/
theorem exists_misclassed_of_tree {doc : Value} {e : LoadError} (hdoc : doc.WellFormed)
    (h : tree doc = .error e) :
    (doc.get? "class" = none ∧ e = .missingClass) ∨
      ∃ path inner v, InlineAt doc path inner ∧ inner.Misclassed v ∧
        e = ClassTag.unknown inner v := by
  rcases ClassTag.class_cases doc with hnone | ⟨v, hv⟩ | ⟨tag, htag⟩
  · rw [tree_eq_of_ofDocument (ClassTag.ofDocument_of_none hnone)] at h
    exact .inl ⟨hnone, (Except.error.inj h).symm⟩
  · rw [tree_eq_of_ofDocument (ClassTag.ofDocument_of_misclassed hv)] at h
    exact .inr ⟨[], doc, v, .here doc, hv, (Except.error.inj h).symm⟩
  · right
    rw [← error?_eq_some_iff] at h
    by_cases hworkflow : tag = .workflow
    · subst hworkflow
      rw [error?_tree_of_workflow hdoc htag] at h
      obtain ⟨run, hrun, h⟩ := List.exists_of_findSome?_eq_some h
      -- What is run inline has a class, and is smaller.
      have hsize := sizeOf_lt_of_mem_inlineRuns hrun
      rcases exists_misclassed_of_tree (wellFormed_of_mem_inlineRuns hdoc hrun)
        (error?_eq_some_iff.mp h) with ⟨hnone, -⟩ | ⟨path, inner, v, hinner, hv, he⟩
      · obtain ⟨-, -, -, hclass⟩ := exists_step_of_mem_inlineRuns hrun
        exact absurd hnone hclass
      · obtain ⟨i, hi⟩ := exists_inlineAt_of_mem_inlineRuns htag hrun hinner
        exact ⟨i :: path, inner, v, hi, hv, he⟩
    · rw [error?_tree_of_tool htag hworkflow] at h
      cases h
termination_by sizeOf doc

/-- What the tree stage makes of a document as far as classes go. -/
structure FailsOnClass (doc : Value) : Prop where
  fails_iff : (∃ e, tree doc = .error e) ↔
    doc.get? "class" = none ∨ (∃ v, doc.Misclassed v) ∨
      doc.get? "class" = some (.string "Workflow") ∧
        ∃ run ∈ doc.inlineRuns, ∃ e, tree run = .error e
  missing : doc.get? "class" = none → tree doc = .error .missingClass
  unknown : ∀ v, doc.Misclassed v → tree doc = .error (ClassTag.unknown doc v)
  /-- A workflow fails as the first document does that fails, in the order of the steps. -/
  first : doc.get? "class" = some (.string "Workflow") → ∀ before run after e,
    doc.inlineRuns = before ++ run :: after → (∀ r ∈ before, ∃ out, tree r = .ok out) →
      tree run = .error e → tree doc = .error e
  /-- What is reported of a document that is run inline is the innermost one at fault. -/
  innermost : ∀ run ∈ doc.inlineRuns, ∀ e, tree run = .error e → ∃ path inner v,
    InlineAt run path inner ∧ inner.Misclassed v ∧ e = ClassTag.unknown inner v
  /-- The class of the document is that of its normal form and of the process. -/
  kept : ∀ out, tree doc = .ok out → ∃ tag : ClassTag,
    doc.get? "class" = some (.string tag.name) ∧ out.get? "class" = some (.string tag.name) ∧
      ∀ p, process doc = .ok p → p.classTag = tag

/-- The tree stage fails on classes only. -/
theorem failsOnClass (hdoc : doc.WellFormed) : FailsOnClass doc := by
  have hworkflow_iff : doc.get? "class" = some (.string "Workflow") ↔
      ClassTag.ofDocument doc = .ok .workflow := by
    rw [ClassTag.ofDocument_eq_ok_iff]
    rfl
  constructor
  case fails_iff =>
    constructor
    · rintro ⟨e, h⟩
      rcases ClassTag.class_cases doc with hnone | hv | ⟨tag, htag⟩
      · exact .inl hnone
      · exact .inr (.inl hv)
      · right
        right
        rw [← error?_eq_some_iff] at h
        by_cases hworkflow : tag = .workflow
        · subst hworkflow
          rw [error?_tree_of_workflow hdoc htag] at h
          obtain ⟨run, hrun, h⟩ := List.exists_of_findSome?_eq_some h
          exact ⟨hworkflow_iff.mpr htag, run, hrun, e, error?_eq_some_iff.mp h⟩
        · rw [error?_tree_of_tool htag hworkflow] at h
          cases h
    · rintro (hnone | ⟨v, hv⟩ | ⟨hclass, run, hrun, e, he⟩)
      · exact ⟨_, tree_eq_of_ofDocument (ClassTag.ofDocument_of_none hnone)⟩
      · exact ⟨_, tree_eq_of_ofDocument (ClassTag.ofDocument_of_misclassed hv)⟩
      · have hsome : (error? (tree doc)).isSome := by
          rw [error?_tree_of_workflow hdoc (hworkflow_iff.mp hclass), List.findSome?_isSome_iff]
          exact ⟨run, hrun, by rw [he]; rfl⟩
        obtain ⟨e', he'⟩ := Option.isSome_iff_exists.mp hsome
        exact ⟨e', error?_eq_some_iff.mp he'⟩
  case missing => exact fun h => tree_eq_of_ofDocument (ClassTag.ofDocument_of_none h)
  case unknown => exact fun v h => tree_eq_of_ofDocument (ClassTag.ofDocument_of_misclassed h)
  case first =>
    intro hclass before run after e hruns hbefore h
    rw [← error?_eq_some_iff, error?_tree_of_workflow hdoc (hworkflow_iff.mp hclass),
      List.findSome?_eq_some_iff]
    exact ⟨before, run, after, hruns, error?_eq_some_iff.mpr h,
      fun r hr => error?_eq_none_iff.mpr (hbefore r hr)⟩
  case innermost =>
    intro run hrun e h
    obtain ⟨-, -, -, hclass⟩ := exists_step_of_mem_inlineRuns hrun
    exact (exists_misclassed_of_tree (wellFormed_of_mem_inlineRuns hdoc hrun) h).resolve_left
      fun hnone => hclass hnone.1
  case kept =>
    intro out h
    obtain ⟨tag, -, -, -, htag, -⟩ := exists_of_tree h
    refine ⟨tag, ClassTag.ofDocument_eq_ok_iff.mp htag, get?_class_of_tree h htag, ?_⟩
    intro p hp
    obtain ⟨tag', w, fs, htag', -, -, rfl⟩ := process_eq_ok_iff.mp hp
    obtain rfl := Except.ok.inj (htag.symm.trans htag')
    cases tag <;> rfl

/-- A document of a class that there is not. -/
def namelessTool : Value := .mapping [("class", .string "Tool"), ("id", .string "unknown")]

/-- A workflow with a step that runs this document. -/
def namelessFlow : Value :=
  .mapping [("class", .string "Workflow"), ("steps", .sequence [.mapping [("run", namelessTool)]])]

/-- A workflow that keys its steps. The first one runs a tool, the second one runs the workflow
around the document, and the third one runs a document with a class that is no text. -/
def faultyFlow : Value :=
  .mapping [("class", .string "Workflow"), ("steps", .mapping [
    ("good", .mapping [("run", .mapping [("class", .string "ExpressionTool")])]),
    ("deep", .mapping [("in", .null), ("run", namelessFlow)]),
    ("last", .mapping [("run", .mapping [("class", .null)])])])]

/-- The document of the class that there is not is reported, as it was written. -/
theorem failsOnClass_faultyFlow :
    faultyFlow.WellFormed ∧
      tree faultyFlow = .error (ClassTag.unknown namelessTool (.string "Tool")) := by
  have hflow : faultyFlow.WellFormed := by
    simp [faultyFlow, namelessFlow, namelessTool, Value.WellFormed, Value.WellFormedEntries,
      Value.WellFormedItems, Entries.Distinct, Entries.keys]
  have hruns : faultyFlow.inlineRuns = [.mapping [("class", .string "ExpressionTool")],
      namelessFlow, .mapping [("class", .null)]] := by decide +kernel
  have hinner : namelessFlow.inlineRuns = [namelessTool] := by decide +kernel
  have hdeep : namelessFlow.WellFormed := wellFormed_of_mem_inlineRuns hflow (by simp [hruns])
  have htool : namelessTool.WellFormed := wellFormed_of_mem_inlineRuns hdeep (by simp [hinner])
  refine ⟨hflow, (failsOnClass hflow).first rfl [.mapping [("class", .string "ExpressionTool")]]
    _ _ _ hruns ?_ ?_⟩
  · intro r hr
    obtain rfl := List.mem_singleton.mp hr
    exact ⟨_, rfl⟩
  · refine (failsOnClass hdeep).first rfl [] _ _ _ hinner (List.forall_mem_nil _) ?_
    refine (failsOnClass htool).unknown _ ⟨rfl, ?_⟩
    rintro (_ | _ | _) <;> decide

end Normal

end CanonicalCwl
