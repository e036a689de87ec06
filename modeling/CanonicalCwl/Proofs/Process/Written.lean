import CanonicalCwl.Proofs.Process.Tree
import CanonicalCwl.Proofs.Shape.Writing

/-!
# Canonical Trees Written Again

A canonical tree is the tree of what it stands for: nothing of it is lost when it is taken apart
(`toTree_ofTree`).
-/

namespace CanonicalCwl

open Result Shape

/-! ## Data and bindings -/

namespace DataValue

/-- A canonical data value is the tree of what it stands for. -/
theorem toTree_ofTree {v w : Value} (h : (Shape.choice .data).read v = .ok w) :
    (ofTree w).toTree = w := by
  obtain ⟨arm, s, u, u', -, hs, hu, rfl⟩ := read_choice_eq_ok_iff.mp h
  have hmem := Entries.mem_of_get? hs
  simp only [ChoiceKind.arms, List.mem_cons, Prod.mk.injEq, List.not_mem_nil, or_false] at hmem
  rcases hmem with ⟨rfl, rfl⟩ | ⟨rfl, rfl⟩ | ⟨rfl, rfl⟩ | ⟨rfl, rfl⟩ | ⟨rfl, rfl⟩ | ⟨rfl, rfl⟩
  case inr.inr.inr.inr.inl =>
    obtain ⟨vs, ws, -, rfl, -⟩ := read_listOf_eq_ok_iff.mp hu
    rfl
  all_goals
    -- Every other kind of data is a tree of one kind.
    cases u <;> simp only [Shape.read, reduceCtorEq, Except.ok.injEq] at hu <;> subst hu <;> rfl

end DataValue

namespace CommandLineBinding

/-- A canonical binding is the tree of what it stands for. -/
theorem toTree_ofTree {v w : Value} (h : (Shape.record .commandLineBinding).read v = .ok w) :
    (ofTree w).toTree = w := by
  obtain ⟨fs, rfl, -⟩ := get?_of_read_record h
  have hkeeps := ((((((Keeps.optionalInt h "position").append
    (.optionalText h "prefix")).append
    (.optionalFlag h "separate")).append
    (.optionalText h "itemSeparator")).append
    (.optionalText h "valueFrom")).append
    (.optionalFlag h "shellQuote")).append
    (.optionalFlag h "loadContents")
  exact congrArg Value.mapping (Keeps.eq h hkeeps)

end CommandLineBinding

namespace OutputBinding

/-- A canonical binding is the tree of what it stands for. -/
theorem toTree_ofTree {v w : Value} (h : (Shape.record .outputBinding).read v = .ok w) :
    (ofTree w).toTree = w := by
  obtain ⟨fs, rfl, -⟩ := get?_of_read_record h
  have hkeeps := ((Keeps.listedTexts h "glob").append
    (.optionalFlag h "loadContents")).append
    (.optionalText h "outputEval")
  exact congrArg Value.mapping (Keeps.eq h hkeeps)

end OutputBinding

/-! ## Types -/

namespace TypeExpr

section

variable {v : Value} {fs : Mapping}

/-- A canonical array type has its items. -/
theorem exists_of_read_arrayType (h : (Shape.record .arrayType).read v = .ok (.mapping fs)) :
    ∃ items, fs = [("items", items)] ∧ ∃ v, (Shape.choice .type).read v = .ok items := by
  obtain ⟨items, hitems, heq⟩ := exists_ofSlots_cons h (.required "items" (.choice .type)) []
    (by simp [RecordKind.slots]) (by simp [Slot.Omissible, Slot.required])
  exact ⟨items, (ofSlots_of_read_record h).symm.trans heq, hitems⟩

/-- A canonical union has a list of members. -/
theorem exists_of_read_unionType (h : (Shape.record .unionType).read v = .ok (.mapping fs)) :
    ∃ members, fs = [("types", .sequence members)] ∧
      ∀ w ∈ members, ∃ v, (Shape.choice .type).read v = .ok w := by
  obtain ⟨u, ⟨v', hu⟩, heq⟩ := exists_ofSlots_cons h
    (.required "types" (.listOf (.choice .type))) [] (by simp [RecordKind.slots])
    (by simp [Slot.Omissible, Slot.required])
  obtain ⟨vs, members, -, rfl, -⟩ := read_listOf_eq_ok_iff.mp hu
  exact ⟨members, (ofSlots_of_read_record h).symm.trans heq, fun w => read_of_mem_listOf hu⟩

/-- A canonical record type has a name and a list of fields. -/
theorem exists_of_read_recordType (h : (Shape.record .recordType).read v = .ok (.mapping fs)) :
    ∃ name fields, fs = [("name", .string name), ("fields", .sequence fields)] ∧
      ∀ w ∈ fields, ∃ v, (Shape.record .field).read v = .ok w := by
  obtain ⟨u, ⟨v₁, hu⟩, hname⟩ := exists_ofSlots_cons h (.defaulted "name" .text (.string ""))
    [.defaulted "fields" (.listOf (.record .field)) (.sequence [])]
    (by simp [RecordKind.slots]) (by simp [Slot.Omissible, Slot.defaulted])
  obtain ⟨u', ⟨v₂, hu'⟩, hfields⟩ := exists_ofSlots_cons h
    (.defaulted "fields" (.listOf (.record .field)) (.sequence [])) []
    (by simp [RecordKind.slots]) (by simp [Slot.Omissible, Slot.defaulted])
  obtain ⟨name, -, rfl⟩ := Option.map_eq_some_iff.mp (string?_of_read hu)
  obtain ⟨vs, fields, -, rfl, -⟩ := read_listOf_eq_ok_iff.mp hu'
  rw [hfields] at hname
  exact ⟨name, fields, (ofSlots_of_read_record h).symm.trans hname,
    fun w => read_of_mem_listOf hu'⟩

/-- A canonical enumeration has a name and a list of symbols. -/
theorem exists_of_read_enumType (h : (Shape.record .enumType).read v = .ok (.mapping fs)) :
    ∃ name symbols, fs = [("name", .string name), ("symbols", .sequence symbols)] ∧
      (symbols.filterMap Value.string?).map .string = symbols := by
  obtain ⟨u, ⟨v₁, hu⟩, hname⟩ := exists_ofSlots_cons h (.defaulted "name" .text (.string ""))
    [.required "symbols" (.listOf .text)]
    (by simp [RecordKind.slots]) (by simp [Slot.Omissible, Slot.defaulted])
  obtain ⟨u', ⟨v₂, hu'⟩, hsymbols⟩ := exists_ofSlots_cons h
    (.required "symbols" (.listOf .text)) []
    (by simp [RecordKind.slots]) (by simp [Slot.Omissible, Slot.required])
  obtain ⟨name, -, rfl⟩ := Option.map_eq_some_iff.mp (string?_of_read hu)
  obtain ⟨vs, symbols, -, rfl, -⟩ := read_listOf_eq_ok_iff.mp hu'
  rw [hsymbols] at hname
  exact ⟨name, symbols, (ofSlots_of_read_record h).symm.trans hname,
    map_filterMap_of_read (fun _ _ => string?_of_read) fun w => read_of_mem_listOf hu'⟩

/-- A canonical field has a name and a type, and keeps what comes after them. -/
theorem exists_of_read_field (h : (Shape.record .field).read v = .ok (.mapping fs)) :
    ∃ name type rest, fs = ("name", .string name) :: ("type", type) :: rest ∧
      (∃ v, (Shape.choice .type).read v = .ok type) ∧
      rest = Entries.listedTexts "doc" ((Value.mapping fs).stringsAt "doc") ++
        Entries.optional "default" (Entries.get? fs "default") := by
  obtain ⟨u, ⟨v₁, hu⟩, hname⟩ := exists_ofSlots_cons h (.required "name" .text)
    [.required "type" (.choice .type), .list "doc" .text, .optional "default" .anything]
    (by simp [RecordKind.slots]) (by simp [Slot.Omissible, Slot.required])
  obtain ⟨type, htype, heq⟩ := exists_ofSlots_cons h (.required "type" (.choice .type))
    [.list "doc" .text, .optional "default" .anything]
    (by simp [RecordKind.slots]) (by simp [Slot.Omissible, Slot.required])
  obtain ⟨name, -, rfl⟩ := Option.map_eq_some_iff.mp (string?_of_read hu)
  rw [heq] at hname
  have hrest := (Keeps.listedTexts h "doc").append (.optionalTree "default")
  exact ⟨name, type, _, (ofSlots_of_read_record h).symm.trans hname, htype,
    (hrest (by simp [RecordKind.slots])).symm⟩

end

mutual

/-- A canonical type is the tree of what it stands for. -/
theorem toTree_ofTree (w : Value) {v : Value} (h : (Shape.choice .type).read v = .ok w) :
    (ofTree w).toTree = w := by
  obtain ⟨arm, s, u, u', -, hs, hu, rfl⟩ := read_choice_eq_ok_iff.mp h
  have hmem := Entries.mem_of_get? hs
  simp only [ChoiceKind.arms, List.mem_cons, Prod.mk.injEq, List.not_mem_nil, or_false] at hmem
  rcases hmem with ⟨rfl, rfl⟩ | ⟨rfl, rfl⟩ | ⟨rfl, rfl⟩ | ⟨rfl, rfl⟩ | ⟨rfl, rfl⟩
  case inl =>
    obtain ⟨name, -, rfl⟩ := Option.map_eq_some_iff.mp (string?_of_read hu)
    rw [Value.tagged, ofTree, toTree, Value.tagged]
  all_goals obtain ⟨fs, rfl, -⟩ := get?_of_read_record hu
  case inr.inl =>
    obtain ⟨items, rfl, v', hv⟩ := exists_of_read_arrayType hu
    rw [Value.tagged, ofTree, toTree, toTree_ofTree items hv, Value.tagged]
  case inr.inr.inl =>
    obtain ⟨members, rfl, hmembers⟩ := exists_of_read_unionType hu
    rw [Value.tagged, ofTree, toTree, toTrees_ofTrees members hmembers, Value.tagged]
  case inr.inr.inr.inl =>
    obtain ⟨name, fields, rfl, hfields⟩ := exists_of_read_recordType hu
    rw [Value.tagged, ofTree, toTree, fieldTrees_fieldsOfTrees fields hfields, Value.tagged]
  case inr.inr.inr.inr =>
    obtain ⟨name, symbols, rfl, hsymbols⟩ := exists_of_read_enumType hu
    rw [Value.tagged, ofTree, toTree, Value.strings, hsymbols, Value.tagged]
termination_by sizeOf w
decreasing_by
  all_goals
    subst_vars
    simp only [Value.tagged, Value.mapping.sizeOf_spec, Value.sequence.sizeOf_spec,
      List.cons.sizeOf_spec, Prod.mk.sizeOf_spec]
    omega

/-- Canonical types are the trees of what they stand for. -/
theorem toTrees_ofTrees (ws : List Value)
    (h : ∀ w ∈ ws, ∃ v, (Shape.choice .type).read v = .ok w) : toTrees (ofTrees ws) = ws := by
  match ws with
  | [] => rw [ofTrees, toTrees]
  | w :: ws =>
    obtain ⟨v, hv⟩ := h w (List.mem_cons_self ..)
    rw [ofTrees, toTrees, toTree_ofTree w hv,
      toTrees_ofTrees ws fun w hw => h w (List.mem_cons_of_mem _ hw)]
termination_by sizeOf ws

/-- Canonical fields are the trees of what they stand for. -/
theorem fieldTrees_fieldsOfTrees (ws : List Value)
    (h : ∀ w ∈ ws, ∃ v, (Shape.record .field).read v = .ok w) :
    fieldTrees (fieldsOfTrees ws) = ws := by
  match ws with
  | [] => rw [fieldsOfTrees, fieldTrees]
  | w :: ws =>
    obtain ⟨v, hv⟩ := h w (List.mem_cons_self ..)
    obtain ⟨fs, rfl, -⟩ := get?_of_read_record hv
    obtain ⟨name, type, rest, rfl, ⟨v', htype⟩, hrest⟩ := exists_of_read_field hv
    rw [fieldsOfTrees, fieldTrees, fieldOfTree, FieldOf.treeWith, toTree_ofTree type htype,
      fieldTrees_fieldsOfTrees ws fun w hw => h w (List.mem_cons_of_mem _ hw)]
    exact congrArg (fun rest => .mapping (("name", .string name) :: ("type", type) :: rest) :: ws)
      hrest.symm
termination_by sizeOf ws

end

end TypeExpr

/-! ## Parameters -/

namespace InputParameter

/-- A canonical parameter is the tree of what it stands for. -/
theorem toTree_ofTree {v w : Value} (h : (Shape.record .inputParameter).read v = .ok w) :
    (ofTree w).toTree = w := by
  obtain ⟨fs, rfl, -⟩ := get?_of_read_record h
  have hkeeps := ((((((((Keeps.optionalText h "id").append
    (.optionalText h "label")).append
    (.listedTexts h "doc")).append
    (.optionalPart h "type" fun _ w hw => TypeExpr.toTree_ofTree w hw)).append
    (.optionalPart h "default" fun _ _ hw => DataValue.toTree_ofTree hw)).append
    (.optionalPart h "inputBinding" fun _ _ hw => CommandLineBinding.toTree_ofTree hw)).append
    (.optionalFlag h "streamable")).append
    (.optionalTree "format")).append
    (.optionalTree "secondaryFiles")
  exact congrArg Value.mapping (Keeps.eq h hkeeps)

end InputParameter

namespace OutputParameter

/-- A canonical parameter is the tree of what it stands for. -/
theorem toTree_ofTree {v w : Value} (h : (Shape.record .outputParameter).read v = .ok w) :
    (ofTree w).toTree = w := by
  obtain ⟨fs, rfl, -⟩ := get?_of_read_record h
  have hkeeps := (((((((((Keeps.optionalText h "id").append
    (.optionalText h "label")).append
    (.listedTexts h "doc")).append
    (.optionalPart h "type" fun _ w hw => TypeExpr.toTree_ofTree w hw)).append
    (.optionalPart h "outputBinding" fun _ _ hw => OutputBinding.toTree_ofTree hw)).append
    (.listedTexts h "outputSource")).append
    (.optionalText h "linkMerge")).append
    (.optionalFlag h "streamable")).append
    (.optionalTree "format")).append
    (.optionalTree "secondaryFiles")
  exact congrArg Value.mapping (Keeps.eq h hkeeps)

end OutputParameter

namespace StepInput

/-- A canonical step input is the tree of what it stands for. -/
theorem toTree_ofTree {v w : Value} (h : (Shape.record .stepInput).read v = .ok w) :
    (ofTree w).toTree = w := by
  obtain ⟨fs, rfl, -⟩ := get?_of_read_record h
  have hkeeps := ((((Keeps.optionalText h "id").append
    (.listedTexts h "source")).append
    (.optionalText h "linkMerge")).append
    (.optionalTree "default")).append
    (.optionalText h "valueFrom")
  exact congrArg Value.mapping (Keeps.eq h hkeeps)

end StepInput

namespace StepOutput

/-- A canonical step output is the tree of what it stands for. -/
theorem toTree_ofTree {v w : Value} (h : (Shape.record .stepOutput).read v = .ok w) :
    (ofTree w).toTree = w := by
  obtain ⟨fs, rfl, -⟩ := get?_of_read_record h
  have hid := Keeps.presentText h (.required "id" .text) rfl
    (by simp [Slot.Omissible, Slot.required])
  exact congrArg Value.mapping (Keeps.eq h hid)

end StepOutput

/-! ## Processes -/

namespace Header

variable {r : RecordKind} {v : Value} {fs : Mapping}

/-- The fields that a process begins with are kept. -/
theorem keeps_entries (h : (Shape.record r).read v = .ok (.mapping fs)) :
    Keeps r fs RecordKind.headerSlots (ofTree (.mapping fs)).entries :=
  ((((((((Keeps.optionalText h "id").append
    (.optionalText h "class")).append
    (.optionalText h "cwlVersion")).append
    (.optionalText h "label")).append
    (.listedTexts h "doc")).append
    (.listedParts h "inputs" fun _ _ hw => InputParameter.toTree_ofTree hw)).append
    (.listedParts h "outputs" fun _ _ hw => OutputParameter.toTree_ofTree hw)).append
    (.listedMappings h "requirements")).append
    (.listedMappings h "hints")

/-- The fields that a process ends with are kept. -/
theorem keeps_footer : Keeps r fs RecordKind.footerSlots (ofTree (.mapping fs)).footer :=
  (Keeps.optionalTree "$namespaces").append (.optionalTree "$schemas")

end Header

namespace CommandLineTool

/-- A canonical tool is the tree of what it stands for. -/
theorem toTree_ofTree {v w : Value} (h : (Shape.record .commandLineTool).read v = .ok w) :
    (ofTree w).toTree = w := by
  obtain ⟨fs, rfl, -⟩ := get?_of_read_record h
  have hown := (((((((Keeps.listedTexts h "baseCommand").append
    (.listedParts h "arguments" fun _ _ hw => CommandLineBinding.toTree_ofTree hw)).append
    (.optionalText h "stdin")).append
    (.optionalText h "stdout")).append
    (.optionalText h "stderr")).append
    (.listedInts h "successCodes")).append
    (.listedInts h "temporaryFailCodes")).append
    (.listedInts h "permanentFailCodes")
  rw [toTree, entries_eq]
  exact congrArg Value.mapping
    (Keeps.eq h (((Header.keeps_entries h).append hown).append Header.keeps_footer))

end CommandLineTool

namespace ExpressionTool

/-- A canonical tool is the tree of what it stands for. -/
theorem toTree_ofTree {v w : Value} (h : (Shape.record .expressionTool).read v = .ok w) :
    (ofTree w).toTree = w := by
  obtain ⟨fs, rfl, -⟩ := get?_of_read_record h
  have hexpression := Keeps.presentText h (.defaulted "expression" .text (.string "")) rfl
    (by simp [Slot.Omissible, Slot.defaulted])
  exact congrArg Value.mapping
    (Keeps.eq h (((Header.keeps_entries h).append hexpression).append Header.keeps_footer))

end ExpressionTool

namespace StepOf

/-- The fields of a step are kept if its run is. -/
theorem entriesWith_ofTreeWith {ρ : Type} {v u : Value} {fs : Mapping}
    (h : (Shape.record .step).read v = .ok (.mapping fs)) (run : ρ)
    (hu : Entries.get? fs "run" = some u) :
    (ofTreeWith (.mapping fs) run).entriesWith u = fs := by
  have hrun : Keeps .step fs [.required "run" (.choice .run)] [("run", u)] :=
    .of_eq fun _ => by
      rw [Slot.required, hu]
      rfl
  have hkeeps := (((((((((Keeps.optionalText h "id").append
    (.optionalText h "label")).append
    (.listedTexts h "doc")).append
    (.listedParts h "in" fun _ _ hw => StepInput.toTree_ofTree hw)).append
    (.listedParts h "out" fun _ _ hw => StepOutput.toTree_ofTree hw)).append
    hrun).append
    (.listedMappings h "requirements")).append
    (.listedMappings h "hints")).append
    (.listedTexts h "scatter")).append
    (.optionalText h "scatterMethod")
  exact Keeps.eq h hkeeps

end StepOf

namespace Run

/-- The trees of steps whose own trees are kept. -/
theorem stepTrees_stepsOfTrees {ws : List Value}
    (h : ∀ w ∈ ws, ∃ es, w = .mapping es ∧
      (StepOf.ofTreeWith (.mapping es) (runIn es)).entriesWith (toTree (runIn es)) = es) :
    stepTrees (stepsOfTrees ws) = ws := by
  induction ws with
  | nil => rfl
  | cons w ws ih =>
    obtain ⟨es, rfl, hes⟩ := h w (List.mem_cons_self ..)
    rw [stepsOfTrees, stepTrees, ih fun w hw => h w (List.mem_cons_of_mem _ hw)]
    exact congrArg (Value.mapping · :: ws) hes

/-- The fields of a step are kept if what it runs is. -/
theorem entriesWith_runIn {v : Value} {es : Mapping}
    (h : (Shape.record .step).read v = .ok (.mapping es))
    (hrun : ∀ u v', Entries.get? es "run" = some u → (Shape.choice .run).read v' = .ok u →
      toTree (ofTree u) = u) :
    (StepOf.ofTreeWith (.mapping es) (runIn es)).entriesWith (toTree (runIn es)) = es := by
  obtain ⟨u, hu, v', hv⟩ := exists_get?_of_not_omissible h (.required "run" (.choice .run))
    (by simp [RecordKind.slots]) (by simp [Slot.Omissible, Slot.required])
  have hof : runIn es = ofTree u := by
    rw [runIn_eq]
    exact congrArg (fun o => (o.map ofTree).getD (path "")) hu
  rw [hof, hrun u v' hu hv]
  exact StepOf.entriesWith_ofTreeWith h _ hu

/-- What a step runs is the tree of what it stands for if the processes in it are. -/
theorem toTree_ofTree_of_process {v u : Value} (h : (Shape.choice .run).read v = .ok u)
    (hprocess : ∀ (tag : ClassTag) (fs : Mapping) (v : Value), u = .tagged tag.arm (.mapping fs) →
      (Shape.record tag.record).read v = .ok (.mapping fs) →
        (ProcessOf.ofTree tag (.mapping fs)).toTree = .mapping fs) : toTree (ofTree u) = u := by
  rcases taggedTree_of_read_run h with ⟨target, rfl⟩ | ⟨tag, fs, v', rfl, hread⟩
  · rfl
  · have htag : (ProcessOf.ofTree tag (.mapping fs)).classTag = tag := by cases tag <;> rfl
    rw [ProcessOf.run_ofTree_tagged, toTree, htag]
    exact congrArg (Value.tagged tag.arm) (hprocess tag fs v' rfl hread)

end Run

namespace ProcessOf

/-- A canonical process is the tree of what it stands for. -/
theorem toTree_ofTree (tag : ClassTag) (fs : Mapping) {v : Value}
    (h : (Shape.record tag.record).read v = .ok (.mapping fs)) :
    (ofTree tag (.mapping fs)).toTree = .mapping fs := by
  cases tag with
  | commandLineTool => exact CommandLineTool.toTree_ofTree h
  | expressionTool => exact ExpressionTool.toTree_ofTree h
  | workflow =>
    have hsteps : Run.stepTrees (Run.stepsIn fs) = (Value.mapping fs).itemsAt "steps" := by
      rw [Run.stepsIn_eq_stepsOfTrees]
      refine Run.stepTrees_stepsOfTrees fun w hw => ?_
      obtain ⟨v', hv⟩ := read_of_mem_itemsAt h "steps" (.record .step)
        (by simp [ClassTag.record, RecordKind.slots]) hw
      obtain ⟨es, rfl, -⟩ := get?_of_read_record hv
      refine ⟨es, rfl, Run.entriesWith_runIn hv fun u v'' hu hread => ?_⟩
      refine Run.toTree_ofTree_of_process hread fun tag' fs' v₃ heq hread' => ?_
      -- The induction is on the tree: what a step runs is an entry of an item of the steps.
      have hsmaller : sizeOf fs' < sizeOf fs := by
        have hstep := Value.sizeOf_lt_of_mem_itemsAt hw
        have hentries := Value.sizeOf_lt_of_entries_get? hu
        rw [heq] at hentries
        simp only [Value.tagged, Value.mapping.sizeOf_spec, List.cons.sizeOf_spec,
          Prod.mk.sizeOf_spec] at hstep hentries
        omega
      exact toTree_ofTree tag' fs' hread'
    have hkeeps := ((Header.keeps_entries h).append (.listedItems h "steps" (.record .step))).append
      Header.keeps_footer
    rw [← hsteps] at hkeeps
    exact congrArg Value.mapping (Keeps.eq h hkeeps)
termination_by sizeOf fs

end ProcessOf

/-- A canonical run is the tree of what it stands for. -/
theorem Run.toTree_ofTree {v w : Value} (h : (Shape.choice .run).read v = .ok w) :
    toTree (ofTree w) = w :=
  toTree_ofTree_of_process h fun tag fs _ _ hread => ProcessOf.toTree_ofTree tag fs hread

namespace StepOf

/-- A canonical step is the tree of what it stands for. -/
theorem toTree_ofTree {v w : Value} (h : (Shape.record .step).read v = .ok w) :
    (ofTree w).toTree = w := by
  obtain ⟨es, rfl, -⟩ := get?_of_read_record h
  exact congrArg Value.mapping
    (Run.entriesWith_runIn h fun _ _ _ hread => Run.toTree_ofTree hread)

end StepOf

namespace WorkflowOf

/-- A canonical workflow is the tree of what it stands for. -/
theorem toTree_ofTree {v w : Value} (h : (Shape.record .workflow).read v = .ok w) :
    (ofTree w).toTree = w := by
  obtain ⟨fs, rfl, -⟩ := get?_of_read_record h
  exact ProcessOf.toTree_ofTree .workflow fs h

end WorkflowOf

/-- A canonical process under its tag is the tree of what it stands for. -/
theorem ProcessOf.toTaggedTree_ofTaggedTree {v w : Value}
    (h : (Shape.choice .process).read v = .ok w) : (ofTaggedTree w).toTaggedTree = w := by
  obtain ⟨tag, fs, v', rfl, hread⟩ := taggedTree_of_read_process h
  have htag : (ofTree tag (.mapping fs)).classTag = tag := by cases tag <;> rfl
  rw [ofTaggedTree, run_ofTree_tagged, toTaggedTree, htag, toTree_ofTree tag fs hread]

namespace Graph

/-- A canonical bundle is the tree of what it stands for. -/
theorem toTree_ofTree {v w : Value} (h : (Shape.record .graph).read v = .ok w) :
    (ofTree w).toTree = w := by
  obtain ⟨fs, rfl, -⟩ := get?_of_read_record h
  have hmembers := Keeps.presentParts h
    (.defaulted "graph" (.listOf (.choice .process)) (.sequence [])) rfl
    (by simp [Slot.Omissible, Slot.defaulted])
    fun _ _ hw => ProcessOf.toTaggedTree_ofTaggedTree hw
  have hkeeps := (Keeps.optionalText h "cwlVersion").append hmembers
  exact congrArg Value.mapping (Keeps.eq h hkeeps)

end Graph

end CanonicalCwl
