import CanonicalCwl.Process.Tree
import CanonicalCwl.Proofs.Process.Part
import CanonicalCwl.Proofs.Process.Within

/-!
# Processes and Their Trees

A process, what a step runs and a bundle are taken apart from their trees again
(`ofTree_toTree`). The entries of a process are in canonical form if no field that may hold any
tree holds null (`reads_entries`); steps may run anything whose canonical form is known.

- `ProcessOf.NoNull`: no such field holds null, neither in the process nor in one within it.
- `ProcessOf.noNull_ofTree`: every process that was read from a tree is of this kind.
-/

namespace CanonicalCwl

open Result Shape

/-! ## Headers -/

namespace Header

/-- No field of the header, and none of its parameters, holds null. -/
structure NoNull (h : Header) : Prop where
  inputs : ∀ p ∈ h.inputs, p.NoNull
  outputs : ∀ p ∈ h.outputs, p.NoNull
  namespaces : h.namespaces ≠ some .null
  schemas : h.schemas ≠ some .null

/-- The entries a process begins with are in canonical form. -/
theorem reads_entries {h : Header} (hnull : h.NoNull) :
    Reads RecordKind.headerSlots h.entries h.entries :=
  ((((((((Reads.optionalText "id" h.id).append
    (.optionalText "class" h.className)).append
    (.optionalText "cwlVersion" h.cwlVersion)).append
    (.optionalText "label" h.label)).append
    (.listedTexts "doc" h.doc)).append
    (.listedMap "inputs" fun p hp => InputParameter.read_toTree (hnull.inputs p hp))).append
    (.listedMap "outputs" fun p hp => OutputParameter.read_toTree (hnull.outputs p hp))).append
    (.listedMappings "requirements" h.requirements)).append
    (.listedMappings "hints" h.hints)

/-- The entries a process ends with are in canonical form. -/
theorem reads_footer {h : Header} (hnull : h.NoNull) :
    Reads RecordKind.footerSlots h.footer h.footer :=
  (Reads.optionalTree "$namespaces" hnull.namespaces).append
    (.optionalTree "$schemas" hnull.schemas)

/-- The header of a process is taken out whatever stands between its parts, as long as the
names are others. -/
theorem ofTree_entries (h : Header) {middle : Mapping}
    (hmiddle : ∀ slot ∈ RecordKind.headerSlots ++ RecordKind.footerSlots,
      Entries.get? middle slot.name = none) :
    ofTree (.mapping (h.entries ++ middle ++ h.footer)) = h := by
  simp [RecordKind.headerSlots, RecordKind.footerSlots, Slot.optional, Slot.list] at hmiddle
  simp [ofTree, entries, footer, Entries.optionalText, Entries.listedTexts,
    Entries.listedMappings, Function.comp_def, hmiddle]

end Header

/-! ## Tools -/

namespace CommandLineTool

/-- The entries that only a tool has. -/
def ownEntries (t : CommandLineTool) : Mapping :=
  Entries.listedTexts "baseCommand" t.baseCommand ++
  Entries.listed "arguments" (t.arguments.map CommandLineBinding.toTree) ++
  Entries.optionalText "stdin" t.stdin ++
  Entries.optionalText "stdout" t.stdout ++
  Entries.optionalText "stderr" t.stderr ++
  Entries.listedInts "successCodes" t.successCodes ++
  Entries.listedInts "temporaryFailCodes" t.temporaryFailCodes ++
  Entries.listedInts "permanentFailCodes" t.permanentFailCodes

/-- The entries of a tool stand between those of its header. -/
theorem entries_eq (t : CommandLineTool) :
    t.entries = t.toHeader.entries ++ t.ownEntries ++ t.toHeader.footer := by
  simp [entries, ownEntries]

/-- The entries of a tool are in canonical form. -/
theorem reads_entries {t : CommandLineTool} (hnull : t.toHeader.NoNull) :
    Reads (RecordKind.slots .commandLineTool) t.entries t.entries := by
  have hown := (((((((Reads.listedTexts "baseCommand" t.baseCommand).append
    (.listedMap "arguments" fun b (_ : b ∈ t.arguments) => b.read_toTree)).append
    (.optionalText "stdin" t.stdin)).append
    (.optionalText "stdout" t.stdout)).append
    (.optionalText "stderr" t.stderr)).append
    (.listedInts "successCodes" t.successCodes)).append
    (.listedInts "temporaryFailCodes" t.temporaryFailCodes)).append
    (.listedInts "permanentFailCodes" t.permanentFailCodes)
  rw [entries_eq]
  exact ((Header.reads_entries hnull).append hown).append (Header.reads_footer hnull)

/-- The tree of a tool stands for it. -/
@[simp] theorem ofTree_toTree (t : CommandLineTool) : ofTree t.toTree = t := by
  -- The entries of a tool have other names than those of a header.
  have hheader : Header.ofTree t.toTree = t.toHeader := by
    rw [toTree, entries_eq]
    refine t.toHeader.ofTree_entries ?_
    simp [ownEntries, RecordKind.headerSlots, RecordKind.footerSlots, Slot.optional, Slot.list,
      Entries.listedTexts, Entries.listedInts, Entries.optionalText]
  rw [ofTree, hheader]
  simp [toTree, entries, Header.entries, Header.footer, Entries.listedTexts, Entries.listedInts,
    Entries.optionalText, Entries.listedMappings, Function.comp_def]

end CommandLineTool

namespace ExpressionTool

/-- The entries of a tool are in canonical form. -/
theorem reads_entries {t : ExpressionTool} (hnull : t.toHeader.NoNull) :
    Reads (RecordKind.slots .expressionTool) t.entries t.entries :=
  ((Header.reads_entries hnull).append
    (.defaulted "expression" (.string "") (read_text t.expression))).append
    (Header.reads_footer hnull)

/-- The tree of a tool stands for it. -/
@[simp] theorem ofTree_toTree (t : ExpressionTool) : ofTree t.toTree = t := by
  have hheader : Header.ofTree t.toTree = t.toHeader := by
    rw [toTree, entries]
    refine t.toHeader.ofTree_entries ?_
    simp [RecordKind.headerSlots, RecordKind.footerSlots, Slot.optional, Slot.list,
      Entries.get?_cons]
  rw [ofTree, hheader]
  simp [toTree, entries, Header.entries, Header.footer, Entries.listedTexts,
    Entries.optionalText, Entries.listedMappings, Entries.get?_cons]

end ExpressionTool

/-! ## Steps and workflows -/

namespace StepOf

variable {ρ : Type}

/-- The entries of a step are in canonical form, apart from its run. -/
theorem reads_entriesWith {s : StepOf ρ} (hnull : ∀ i ∈ s.inputs, i.NoNull) {run run' : Value}
    (hrun : (Shape.choice .run).read run = .ok run') :
    Reads (RecordKind.slots .step) (s.entriesWith run) (s.entriesWith run') :=
  (((((((((Reads.optionalText "id" s.id).append
    (.optionalText "label" s.label)).append
    (.listedTexts "doc" s.doc)).append
    (.listedMap "in" fun i hi => StepInput.read_toTree (hnull i hi))).append
    (.listedMap "out" fun o (_ : o ∈ s.outputs) => o.read_toTree)).append
    (.required "run" hrun)).append
    (.listedMappings "requirements" s.requirements)).append
    (.listedMappings "hints" s.hints)).append
    (.listedTexts "scatter" s.scatter)).append
    (.optionalText "scatterMethod" s.scatterMethod)

/-- A step is taken out of its entries, apart from its run. -/
theorem ofTreeWith_entriesWith {σ : Type} (s : StepOf ρ) (v : Value) (run : σ) :
    ofTreeWith (.mapping (s.entriesWith v)) run = { s with run } := by
  simp [ofTreeWith, entriesWith, Entries.optionalText, Entries.listedTexts,
    Entries.listedMappings, Entries.get?_cons, Function.comp_def]

/-- The run of a step is found among its entries. -/
theorem get?_entriesWith_run (s : StepOf ρ) (v : Value) :
    Entries.get? (s.entriesWith v) "run" = some v := by
  simp [entriesWith, Entries.optionalText, Entries.listedTexts, Entries.listedMappings,
    Entries.get?_cons]

end StepOf

namespace WorkflowOf

variable {ρ : Type}

/-- The entries of a workflow are in canonical form, apart from its steps. -/
theorem reads_entriesWith {w : WorkflowOf ρ} (hnull : w.toHeader.NoNull) {steps steps' : List Value}
    (hsteps : List.Forall₂ (fun v v' => (Shape.record .step).read v = .ok v') steps steps') :
    Reads (RecordKind.slots .workflow) (w.entriesWith steps) (w.entriesWith steps') :=
  ((Header.reads_entries hnull).append (.listed "steps" hsteps)).append
    (Header.reads_footer hnull)

/-- The header of a workflow is taken out of its entries. -/
theorem header_entriesWith (w : WorkflowOf ρ) (steps : List Value) :
    Header.ofTree (.mapping (w.entriesWith steps)) = w.toHeader := by
  rw [entriesWith]
  refine w.toHeader.ofTree_entries ?_
  simp [RecordKind.headerSlots, RecordKind.footerSlots, Slot.optional, Slot.list]

/-- The steps of a workflow are found among its entries, unless there are none. -/
theorem get?_entriesWith_steps (w : WorkflowOf ρ) (steps : List Value) :
    Entries.get? (w.entriesWith steps) "steps" = Entries.nonempty? steps := by
  simp [entriesWith, Header.entries, Header.footer, Entries.optionalText, Entries.listedTexts,
    Entries.listedMappings]

end WorkflowOf

namespace Run

/-- The steps among the entries of a workflow are those under their key. -/
theorem stepsIn_eq (entries : Mapping) :
    stepsIn entries = ((Entries.get? entries "steps").map stepsOfTree).getD [] := by
  induction entries with
  | nil => rfl
  | cons e rest ih =>
    obtain ⟨k, v⟩ := e
    rw [stepsIn, Entries.get?_cons]
    split
    · rfl
    · exact ih

/-- The run among the entries of a step is the one under its key. -/
theorem runIn_eq (entries : Mapping) :
    runIn entries = ((Entries.get? entries "run").map ofTree).getD (path "") := by
  induction entries with
  | nil => rfl
  | cons e rest ih =>
    obtain ⟨k, v⟩ := e
    rw [runIn, Entries.get?_cons]
    split
    · rfl
    · exact ih

mutual

/-- The tree of a run stands for it. -/
theorem ofTree_toTree : ∀ r : Run, ofTree r.toTree = r
  | path _ => rfl
  | inline (.commandLineTool t) =>
      congrArg (fun t => inline (.commandLineTool t)) t.ofTree_toTree
  | inline (.expressionTool t) =>
      congrArg (fun t => inline (.expressionTool t)) t.ofTree_toTree
  | inline (.workflow w) => by
      have hsteps : stepsIn (w.entriesWith (stepTrees w.steps)) = w.steps := by
        rw [stepsIn_eq, w.get?_entriesWith_steps]
        -- Without steps nothing is written, and without an entry there are no steps.
        have htrees := stepsOfTrees_stepTrees w.steps
        cases h : stepTrees w.steps with
        | nil => rw [← htrees, h]; rfl
        | cons v rest => rw [← htrees, h]; rfl
      rw [toTree, ProcessOf.classTag, ClassTag.arm, processTree, Value.tagged, ofTree, hsteps,
        w.header_entriesWith]

/-- The trees of steps stand for them. -/
theorem stepsOfTrees_stepTrees : ∀ steps : List (StepOf Run),
    stepsOfTrees (stepTrees steps) = steps
  | [] => rfl
  | s :: rest => by
      have hrun : runIn (s.entriesWith (toTree s.run)) = s.run := by
        rw [runIn_eq, s.get?_entriesWith_run]
        exact ofTree_toTree s.run
      rw [stepTrees, stepsOfTrees, hrun, s.ofTreeWith_entriesWith, stepsOfTrees_stepTrees rest]

end

end Run

/-! ## Processes of a class -/

/-- The record that a process of the class is written as. -/
def ClassTag.record : ClassTag → RecordKind
  | commandLineTool => .commandLineTool
  | expressionTool => .expressionTool
  | workflow => .workflow

namespace ProcessOf

/-- The process of a canonical tree of a class. -/
def ofTree : ClassTag → Value → Process
  | .commandLineTool, v => .commandLineTool (CommandLineTool.ofTree v)
  | .expressionTool, v => .expressionTool (ExpressionTool.ofTree v)
  | .workflow, v => .workflow (WorkflowOf.ofTree v)

/-- A process of a class is read by the record of the class and then taken apart. -/
theorem decode_eq (tag : ClassTag) (v : Value) :
    decode tag v = ((Shape.record tag.record).read v).map (ofTree tag) := by
  have comp {α β γ : Type} (x : Except Mismatch α) (f : α → β) (g : β → γ) :
      (x.map f).map g = x.map fun a => g (f a) := by cases x <;> rfl
  cases tag <;> exact comp ..

/-- A canonical tree under the tag of a class is a process of that class in place. -/
theorem run_ofTree_tagged (tag : ClassTag) (fs : Mapping) :
    Run.ofTree (.tagged tag.arm (.mapping fs)) = .inline (ofTree tag (.mapping fs)) := by
  cases tag <;> rfl

/-- The tree of a process stands for it. -/
theorem ofTree_toTree (p : Process) : ofTree p.classTag p.toTree = p := by
  -- Under its tag, the process is what a step runs in place.
  have hrun := Run.ofTree_toTree (.inline p)
  obtain ⟨fs, hfs⟩ : ∃ fs, p.toTree = .mapping fs := by cases p <;> exact ⟨_, rfl⟩
  have htagged : (Run.inline p).toTree = .tagged p.classTag.arm (.mapping fs) := by
    rw [Run.toTree, ← hfs]
    rfl
  rw [htagged, run_ofTree_tagged] at hrun
  rw [hfs]
  exact Run.inline.inj hrun

end ProcessOf

/-- A canonical tree of a process of some class, under the tag of the class. -/
def TaggedTree (w : Value) : Prop :=
  ∃ (tag : ClassTag) (fs : Mapping) (v : Value), w = .tagged tag.arm (.mapping fs) ∧
    (Shape.record tag.record).read v = .ok (.mapping fs)

/-- A record of a class that was read under the tag of the class. -/
theorem taggedTree_of_read (tag : ClassTag) {v w : Value}
    (h : (Shape.record tag.record).read v = .ok w) : TaggedTree (.tagged tag.arm w) := by
  obtain ⟨fs, rfl, -⟩ := get?_of_read_record h
  exact ⟨tag, fs, v, rfl, h⟩

/-- A tagged process is the tagged record of a class. -/
theorem taggedTree_of_read_process {v w : Value} (h : (Shape.choice .process).read v = .ok w) :
    TaggedTree w := by
  obtain ⟨arm, s, u, u', -, hs, hu, rfl⟩ := read_choice_eq_ok_iff.mp h
  have hmem := Entries.mem_of_get? hs
  simp only [ChoiceKind.arms, List.mem_cons, Prod.mk.injEq, List.not_mem_nil, or_false] at hmem
  rcases hmem with ⟨rfl, rfl⟩ | ⟨rfl, rfl⟩ | ⟨rfl, rfl⟩
  · exact taggedTree_of_read .commandLineTool hu
  · exact taggedTree_of_read .expressionTool hu
  · exact taggedTree_of_read .workflow hu

/-- What a step runs is a tagged path or the tagged record of a class. -/
theorem taggedTree_of_read_run {v w : Value} (h : (Shape.choice .run).read v = .ok w) :
    (∃ target, w = .tagged "path" (.string target)) ∨ TaggedTree w := by
  obtain ⟨arm, s, u, u', -, hs, hu, rfl⟩ := read_choice_eq_ok_iff.mp h
  have hmem := Entries.mem_of_get? hs
  simp only [ChoiceKind.arms, List.mem_cons, Prod.mk.injEq, List.not_mem_nil, or_false] at hmem
  rcases hmem with ⟨rfl, rfl⟩ | ⟨rfl, rfl⟩ | ⟨rfl, rfl⟩ | ⟨rfl, rfl⟩
  · -- A path is a text.
    cases u <;> simp only [Shape.read, reduceCtorEq, Except.ok.injEq] at hu
    subst hu
    exact .inl ⟨_, rfl⟩
  · exact .inr (taggedTree_of_read .commandLineTool hu)
  · exact .inr (taggedTree_of_read .expressionTool hu)
  · exact .inr (taggedTree_of_read .workflow hu)

/-! ## Processes that were read from a tree -/

/-- The header of a process that was read from a tree holds no null. -/
theorem Header.noNull_ofTree {tag : ClassTag} {v : Value} {fs : Mapping}
    (h : (Shape.record tag.record).read v = .ok (.mapping fs)) :
    (Header.ofTree (.mapping fs)).NoNull := by
  have hslots : ∀ slot ∈ RecordKind.headerSlots ++ RecordKind.footerSlots,
      slot ∈ tag.record.slots := by
    intro slot hslot
    rcases List.mem_append.mp hslot with hslot | hslot <;>
      cases tag <;> simp [ClassTag.record, RecordKind.slots, hslot]
  constructor
  case inputs =>
    intro p hp
    obtain ⟨w, hw, rfl⟩ := List.mem_map.mp hp
    obtain ⟨v', hv⟩ := read_of_mem_itemsAt h "inputs" (.record .inputParameter)
      (hslots _ (by simp [RecordKind.headerSlots])) hw
    exact InputParameter.noNull_ofTree hv
  case outputs =>
    intro p hp
    obtain ⟨w, hw, rfl⟩ := List.mem_map.mp hp
    obtain ⟨v', hv⟩ := read_of_mem_itemsAt h "outputs" (.record .outputParameter)
      (hslots _ (by simp [RecordKind.headerSlots])) hw
    exact OutputParameter.noNull_ofTree hv
  case namespaces =>
    exact ne_null_of_read_record h "$namespaces" (hslots _ (by simp [RecordKind.footerSlots]))
  case schemas =>
    exact ne_null_of_read_record h "$schemas" (hslots _ (by simp [RecordKind.footerSlots]))

/-- The steps of a tree are those of its mappings. -/
theorem Run.mem_stepsOfTrees {ws : List Value} {s : Step} (h : s ∈ stepsOfTrees ws) :
    ∃ es, .mapping es ∈ ws ∧ s = StepOf.ofTreeWith (.mapping es) (runIn es) := by
  induction ws with
  | nil => cases h
  | cons w ws ih =>
    have lift (hs : s ∈ stepsOfTrees ws) :
        ∃ es, .mapping es ∈ w :: ws ∧ s = StepOf.ofTreeWith (.mapping es) (runIn es) := by
      obtain ⟨es, hes, heq⟩ := ih hs
      exact ⟨es, List.mem_cons_of_mem _ hes, heq⟩
    rw [stepsOfTrees.eq_def] at h
    split at h
    · cases h
    next es rest heq =>
      obtain ⟨rfl, rfl⟩ := List.cons.inj heq
      rcases List.mem_cons.mp h with rfl | h
      · exact ⟨es, List.mem_cons_self .., rfl⟩
      · exact lift h
    next rest _ heq =>
      obtain ⟨rfl, rfl⟩ := List.cons.inj heq
      exact lift h

/-- The steps of a workflow are those of the items under their key. -/
theorem Run.stepsIn_eq_stepsOfTrees (fs : Mapping) :
    stepsIn fs = stepsOfTrees ((Value.mapping fs).itemsAt "steps") := by
  rw [stepsIn_eq, Value.itemsAt_eq, Value.get?_mapping]
  match Entries.get? fs "steps" with
  | none => rfl
  | some u => cases u <;> rfl

/-- Each of the trees of steps stands for a step, in its place. -/
theorem Run.getElem?_stepsOfTrees {ws : List Value} (h : ∀ w ∈ ws, ∃ es, w = .mapping es) {i : ℕ}
    {es : Mapping} (hes : ws[i]? = some (.mapping es)) :
    (stepsOfTrees ws)[i]? = some (StepOf.ofTreeWith (.mapping es) (runIn es)) := by
  induction ws generalizing i with
  | nil => simp at hes
  | cons w ws ih =>
    obtain ⟨es', rfl⟩ := h w (List.mem_cons_self ..)
    rw [stepsOfTrees]
    cases i with
    | zero =>
      obtain rfl : es' = es := by simpa using hes
      rfl
    | succ i => exact ih (fun w hw => h w (List.mem_cons_of_mem _ hw)) (by simpa using hes)

/-- The steps of a workflow are taken from the items under their key. -/
theorem Run.mem_stepsIn {entries : Mapping} {s : Step} (h : s ∈ stepsIn entries) :
    ∃ es, .mapping es ∈ (Value.mapping entries).itemsAt "steps" ∧
      s = StepOf.ofTreeWith (.mapping es) (runIn es) := by
  rw [stepsIn_eq_stepsOfTrees] at h
  exact mem_stepsOfTrees h

namespace ProcessOf

/-- No field that may hold any tree holds null: neither in the process, nor in the inputs of its
steps, nor in the processes within it. -/
inductive NoNull : Process → Prop
  | commandLineTool {t : CommandLineTool} : t.toHeader.NoNull → NoNull (.commandLineTool t)
  | expressionTool {t : ExpressionTool} : t.toHeader.NoNull → NoNull (.expressionTool t)
  | workflow {w : Workflow} :
      w.toHeader.NoNull → (∀ s ∈ w.steps, ∀ i ∈ s.inputs, i.NoNull) →
        (∀ s ∈ w.steps, ∀ p, s.run = .inline p → NoNull p) → NoNull (.workflow w)

/-- A process that was read from a tree holds no null. -/
theorem noNull_ofTree (tag : ClassTag) (fs : Mapping) {v : Value}
    (h : (Shape.record tag.record).read v = .ok (.mapping fs)) :
    (ofTree tag (.mapping fs)).NoNull := by
  have hheader := Header.noNull_ofTree h
  cases tag with
  | commandLineTool => exact .commandLineTool hheader
  | expressionTool => exact .expressionTool hheader
  | workflow =>
    -- The steps were read one by one, and so were their inputs and what they run.
    have hsteps : ∀ s ∈ Run.stepsIn fs, ∃ es v',
        .mapping es ∈ (Value.mapping fs).itemsAt "steps" ∧
        s = StepOf.ofTreeWith (.mapping es) (Run.runIn es) ∧
        (Shape.record .step).read v' = .ok (.mapping es) := by
      intro s hs
      obtain ⟨es, hes, rfl⟩ := Run.mem_stepsIn hs
      obtain ⟨v', hv⟩ := read_of_mem_itemsAt h "steps" (.record .step)
        (by simp [ClassTag.record, RecordKind.slots]) hes
      exact ⟨es, v', hes, rfl, hv⟩
    refine .workflow hheader (fun s hs i hi => ?_) fun s hs p hp => ?_
    · obtain ⟨es, v', hes, rfl, hv⟩ := hsteps s hs
      obtain ⟨w, hw, rfl⟩ := List.mem_map.mp hi
      obtain ⟨v'', hv'⟩ := read_of_mem_itemsAt hv "in" (.record .stepInput)
        (by simp [RecordKind.slots]) hw
      exact StepInput.noNull_ofTree hv'
    · obtain ⟨es, v', hes, rfl, hv⟩ := hsteps s hs
      have hrun : Run.runIn es = .inline p := hp
      rw [Run.runIn_eq] at hrun
      cases hu : Entries.get? es "run" with
      | none => simp [hu] at hrun
      | some u =>
        obtain ⟨u', hu'⟩ := takes_of_read_record hv (.required "run" (.choice .run))
          (by simp [RecordKind.slots]) (fun _ hdefault => by cases hdefault) hu
        have hof : Run.ofTree u = .inline p := by simpa [hu] using hrun
        rcases taggedTree_of_read_run hu'.read with ⟨target, rfl⟩ | ⟨tag', fs', v'', rfl, hread⟩
        · cases hof
        · rw [run_ofTree_tagged] at hof
          obtain rfl := Run.inline.inj hof
          -- The induction is on the tree: what a step runs is an entry of an item of the steps.
          have hsmaller : sizeOf fs' < sizeOf fs := by
            have hstep := Value.sizeOf_lt_of_mem_itemsAt hes
            have hentries := Value.sizeOf_lt_of_entries_get? hu
            simp only [Value.tagged, Value.mapping.sizeOf_spec, List.cons.sizeOf_spec,
              Prod.mk.sizeOf_spec] at hstep hentries
            omega
          exact noNull_ofTree tag' fs' hread
termination_by sizeOf fs

/-- A process that was read as one of a given class holds no null. -/
theorem noNull_of_decode {tag : ClassTag} {v : Value} {p : Process} (h : decode tag v = .ok p) :
    p.NoNull := by
  rw [decode_eq] at h
  obtain ⟨w, hw, rfl⟩ := map_eq_ok_iff.mp h
  obtain ⟨fs, rfl, -⟩ := get?_of_read_record hw
  exact noNull_ofTree tag fs hw

/-- A process that stands under the tag of its class holds no null. -/
theorem noNull_ofTaggedTree {w : Value} (h : TaggedTree w) : (ofTaggedTree w).NoNull := by
  obtain ⟨tag, fs, v, rfl, hread⟩ := h
  rw [ofTaggedTree, run_ofTree_tagged]
  exact noNull_ofTree tag fs hread

/-- A process that was read under a tag holds no null. -/
theorem noNull_of_decodeTagged {v : Value} {p : Process} (h : decodeTagged v = .ok p) :
    p.NoNull := by
  obtain ⟨w, hw, rfl⟩ := map_eq_ok_iff.mp h
  exact noNull_ofTaggedTree (taggedTree_of_read_process hw)

end ProcessOf

/-- The members of a bundle that was read hold no null. -/
theorem Graph.noNull_of_decode {v : Value} {g : Graph} (h : decode v = .ok g) {p : Process}
    (hp : p ∈ g.members) : p.NoNull := by
  obtain ⟨u, hu, rfl⟩ := map_eq_ok_iff.mp h
  obtain ⟨fs, rfl, hholds⟩ := get?_of_read_record hu
  obtain ⟨w, hw, rfl⟩ := List.mem_map.mp hp
  refine ProcessOf.noNull_ofTaggedTree ?_
  match hget : Entries.get? fs "graph" with
  | none => simp [hget] at hw
  | some u =>
    rcases hholds (.defaulted "graph" (.listOf (.choice .process)) (.sequence []))
      (by simp [RecordKind.slots]) u hget with ⟨u', hu'⟩ | hdefault
    · obtain ⟨vs, ws, -, rfl, -⟩ := read_listOf_eq_ok_iff.mp hu'.read
      obtain ⟨v', hv⟩ := read_of_mem_listOf hu'.read (w := w)
        (by simpa [hget, Value.sequence?] using hw)
      exact taggedTree_of_read_process hv
    · -- The default has no members.
      obtain rfl : Value.sequence [] = u := by simpa [Slot.defaulted] using hdefault
      simp [hget, Value.sequence?] at hw

end CanonicalCwl
