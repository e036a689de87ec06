import CanonicalCwl.Proofs.Process.Cwl
import CanonicalCwl.Proofs.Shape.Assembly

/-!
# Canonical Trees Read Back

What a process or a bundle is written as is in canonical form, and is read as that process or
bundle. A process in normal form names its own class, so that its tree tells how to read it.

- `ProcessOf.decode_toTree`, `Graph.decode_toTree`: the typed readings of the written tree.
- `Normal.className_of_process`: a process in normal form names its own class.
-/

namespace CanonicalCwl

open Result Shape

/-! ## Reading what was written -/

namespace Run

mutual

/-- The tree of what a step runs is in canonical form. -/
theorem read_toTree : ∀ {r : Run}, (∀ p, r = inline p → p.NoNull) →
    (Shape.choice .run).read (toTree r) = .ok (toTree r)
  | path target, _ => by
      rw [toTree]
      exact read_tagged rfl (read_text target)
  | inline p, h => by
      have harm : Entries.get? (ChoiceKind.arms .run) p.classTag.arm =
          some (.record p.classTag.record) := by cases p <;> rfl
      rw [toTree]
      exact read_tagged harm (read_processTree (h p rfl))

/-- The tree of a process is in canonical form. -/
theorem read_processTree : ∀ {p : ProcessOf Run}, ProcessOf.NoNull p →
    (Shape.record p.classTag.record).read (processTree p) = .ok (processTree p)
  | .commandLineTool _, .commandLineTool hnull =>
      (CommandLineTool.reads_entries hnull).read_record
  | .expressionTool _, .expressionTool hnull => (ExpressionTool.reads_entries hnull).read_record
  | .workflow _, .workflow hnull hinputs hruns =>
      (WorkflowOf.reads_entriesWith hnull (read_stepTrees hinputs hruns)).read_record

/-- The trees of steps are in canonical form. -/
theorem read_stepTrees : ∀ {steps : List (StepOf Run)},
    (∀ s ∈ steps, ∀ i ∈ s.inputs, i.NoNull) →
    (∀ s ∈ steps, ∀ p, s.run = inline p → ProcessOf.NoNull p) →
    List.Forall₂ (fun v v' => (Shape.record .step).read v = .ok v')
      (stepTrees steps) (stepTrees steps)
  | [], _, _ => .nil
  | s :: rest, hinputs, hruns => by
      have hrun := read_toTree (hruns s (List.mem_cons_self ..))
      have hstep := StepOf.reads_entriesWith (hinputs s (List.mem_cons_self ..)) hrun
      rw [stepTrees]
      exact .cons hstep.read_record
        (read_stepTrees (fun s hs => hinputs s (List.mem_cons_of_mem _ hs))
          fun s hs => hruns s (List.mem_cons_of_mem _ hs))

end

end Run

namespace ProcessOf

/-- The tree of a process is read as the process. -/
theorem decode_toTree {p : Process} (h : p.NoNull) : decode p.classTag p.toTree = .ok p := by
  rw [decode_eq]
  exact map_eq_ok_iff.mpr ⟨_, Run.read_processTree h, ofTree_toTree p⟩

/-- Under its tag, a process is read as what a step runs in place. -/
theorem ofTaggedTree_toTaggedTree (p : Process) : ofTaggedTree p.toTaggedTree = p := by
  have hrun : Run.ofTree p.toTaggedTree = .inline p := Run.ofTree_toTree (.inline p)
  rw [ofTaggedTree, hrun]

/-- The tree of a process under its tag is in canonical form. -/
theorem read_toTaggedTree {p : Process} (h : p.NoNull) :
    (Shape.choice .process).read p.toTaggedTree = .ok p.toTaggedTree := by
  have harm : Entries.get? (ChoiceKind.arms .process) p.classTag.arm =
      some (.record p.classTag.record) := by cases p <;> rfl
  exact read_tagged harm (Run.read_processTree h)

/-- The tree of a process has the entries of its header, and no other of them has the key of a
class or of the members of a bundle. -/
theorem exists_toTree_eq (p : Process) : ∃ own, p.toTree = .mapping (p.header.entries ++ own) ∧
    Entries.get? own "class" = none ∧ Entries.get? own "graph" = none := by
  cases p with
  | commandLineTool t =>
    refine ⟨t.ownEntries ++ t.toHeader.footer, ?_, ?_⟩
    · rw [← List.append_assoc]
      exact congrArg Value.mapping t.entries_eq
    · simp [CommandLineTool.ownEntries, Header.footer, Entries.optionalText,
        Entries.listedTexts, Entries.listedInts]
  | expressionTool t =>
    refine ⟨[("expression", .string t.expression)] ++ t.toHeader.footer, ?_, ?_⟩
    · rw [← List.append_assoc]
      rfl
    · simp [Header.footer, Entries.get?_cons]
  | workflow w =>
    refine ⟨Entries.listed "steps" (Run.stepTrees w.steps) ++ w.toHeader.footer, ?_, ?_⟩
    · rw [← List.append_assoc]
      rfl
    · simp [Header.footer]

/-- A process is not taken for a bundle. -/
theorem get?_graph_toTree (p : Process) : p.toTree.get? "graph" = none := by
  obtain ⟨own, hp, -, hgraph⟩ := exists_toTree_eq p
  rw [hp]
  simp [Header.entries, Entries.optionalText, Entries.listedTexts, Entries.listedMappings, hgraph]

/-- The tree of a process names the class that the process names. -/
theorem get?_class_toTree (p : Process) :
    p.toTree.get? "class" = p.header.className.map .string := by
  obtain ⟨own, hp, hclass, -⟩ := exists_toTree_eq p
  rw [hp]
  simp [Header.entries, Entries.optionalText, Entries.listedTexts, Entries.listedMappings, hclass]

end ProcessOf

namespace Graph

/-- The tree of a bundle is in canonical form. -/
theorem read_toTree {g : Graph} (h : ∀ p ∈ g.members, p.NoNull) :
    (Shape.record .graph).read g.toTree = .ok g.toTree := by
  have hmembers : (Shape.listOf (.choice .process)).read
      (.sequence (g.members.map ProcessOf.toTaggedTree)) =
        .ok (.sequence (g.members.map ProcessOf.toTaggedTree)) := by
    refine read_listOf_eq_ok_iff.mpr ⟨_, _, rfl, rfl, ?_⟩
    rw [List.forall₂_map_left_iff, List.forall₂_map_right_iff, List.forall₂_same]
    exact fun p hp => ProcessOf.read_toTaggedTree (h p hp)
  have hreads : Reads (RecordKind.slots .graph) _ _ :=
    (Reads.optionalText "cwlVersion" g.cwlVersion).append
      (.defaulted "graph" (.sequence []) hmembers)
  exact hreads.read_record

/-- The tree of a bundle stands for it. -/
theorem ofTree_toTree (g : Graph) : ofTree g.toTree = g := by
  simp [ofTree, toTree, Entries.optionalText, Entries.get?_cons, Value.sequence?,
    Function.comp_def, ProcessOf.ofTaggedTree_toTaggedTree]

/-- The tree of a bundle is read as the bundle. -/
theorem decode_toTree {g : Graph} (h : ∀ p ∈ g.members, p.NoNull) : decode g.toTree = .ok g :=
  map_eq_ok_iff.mpr ⟨_, read_toTree h, ofTree_toTree g⟩

end Graph

/-! ## Classes -/

namespace ClassTag

/-- A name is the one of the class that it names. -/
theorem ofName?_eq_some_iff {s : String} {tag : ClassTag} :
    ofName? s = some tag ↔ s = tag.name := by
  constructor
  · intro h
    rw [ofName?.eq_def] at h
    split at h
    · obtain rfl := Option.some.inj h
      rfl
    · obtain rfl := Option.some.inj h
      rfl
    · obtain rfl := Option.some.inj h
      rfl
    · cases h
  · rintro rfl
    exact ofName?_name tag

/-- The word for a kind of node is the name of no class. -/
theorem ofName?_kind (v : Value) : ofName? ("<" ++ v.kind ++ ">") = none := by
  cases v <;> rfl

/-- A document is of the class that it names. -/
theorem ofDocument_eq_ok_iff {doc : Value} {tag : ClassTag} :
    ofDocument doc = .ok tag ↔ doc.get? "class" = some (.string tag.name) := by
  rw [ofDocument.eq_def]
  match doc.get? "class" with
  | none => simp
  | some (.string s) =>
    simp only [Option.some.injEq, Value.string.injEq, ← ofName?_eq_some_iff]
    cases ofName? s <;> simp
  | some .null | some (.bool _) | some (.int _) | some (.float _) | some (.sequence _)
  | some (.mapping _) => simp [ofName?_kind]

end ClassTag

namespace Normal

/-- Boxing the steps of a workflow keeps its other fields. -/
theorem get?_boxSteps {es boxed : Mapping} (h : boxSteps es = .ok boxed) {key : String}
    (hkey : key ≠ "steps") : Entries.get? boxed key = Entries.get? es key := by
  induction es generalizing boxed with
  | nil =>
    obtain rfl := Except.ok.inj h
    rfl
  | cons e es ih =>
    obtain ⟨k, v⟩ := e
    rw [boxSteps] at h
    rw [Entries.get?_cons]
    split at h
    next hk =>
      simp only [bind_eq_ok_iff, pure_eq_ok_iff] at h
      obtain ⟨w, -, rest, hrest, rfl⟩ := h
      have hne : k ≠ key := fun heq => hkey (heq ▸ hk)
      rw [Entries.get?_cons, if_neg hne, if_neg hne, ih hrest]
    next hk =>
      simp only [bind_eq_ok_iff, pure_eq_ok_iff, Except.ok.injEq] at h
      obtain ⟨w, rfl, rest, hrest, rfl⟩ := h
      rw [Entries.get?_cons, ih hrest]

/-- The tree stage rewrites the fields of a document by its class, whose steps were boxed if it is
a workflow. -/
theorem exists_of_tree {raw normal : Value} (h : tree raw = .ok normal) :
    ∃ tag entries boxed, raw = .mapping entries ∧ ClassTag.ofDocument raw = .ok tag ∧
      (if tag = .workflow then boxSteps entries else .ok entries) = .ok boxed ∧
      normal = .mapping (fields tag boxed) := by
  cases raw with
  | mapping entries =>
    rw [tree, bind_eq_ok_iff] at h
    obtain ⟨tag, htag, h⟩ := h
    refine ⟨tag, entries, ?_⟩
    split at h
    next hworkflow =>
      simp only [bind_eq_ok_iff, pure_eq_ok_iff] at h
      obtain ⟨boxed, hboxed, rfl⟩ := h
      exact ⟨boxed, rfl, htag, by rwa [if_pos hworkflow], rfl⟩
    next hworkflow =>
      obtain rfl := pure_eq_ok_iff.mp h
      exact ⟨entries, rfl, htag, by rw [if_neg hworkflow], rfl⟩
  | _ => cases h

/-- The tree stage keeps the class. -/
theorem get?_class_of_tree {raw normal : Value} (h : tree raw = .ok normal) {tag : ClassTag}
    (htag : ClassTag.ofDocument raw = .ok tag) :
    normal.get? "class" = some (.string tag.name) := by
  obtain ⟨tag', entries, boxed, rfl, htag', hboxed, rfl⟩ := exists_of_tree h
  obtain rfl := Except.ok.inj (htag.symm.trans htag')
  have hclass : Entries.get? boxed "class" = some (.string tag.name) := by
    have hraw : Entries.get? entries "class" = some (.string tag.name) :=
      ClassTag.ofDocument_eq_ok_iff.mp htag
    split at hboxed
    · rw [get?_boxSteps hboxed (by decide), hraw]
    · rw [← Except.ok.inj hboxed, hraw]
  have hkeep : field tag "class" (.string tag.name) = .string tag.name := by
    cases tag <;> simp [field, mapFields, listFields]
  rw [Value.get?_mapping, fields_eq, Entries.get?_mapWithKey, hclass, Option.map_some, hkeep]

/-- A process is read from the normal form of its document, by the record of its class. -/
theorem process_eq_ok_iff {doc : Value} {p : Process} :
    process doc = .ok p ↔ ∃ tag w fs, ClassTag.ofDocument doc = .ok tag ∧ tree doc = .ok w ∧
      (record tag.record).read w = .ok (.mapping fs) ∧ ProcessOf.ofTree tag (.mapping fs) = p := by
  simp only [process, decode, bind_eq_ok_iff, mapError_eq_ok_iff, ProcessOf.decode_eq,
    map_eq_ok_iff]
  constructor
  · rintro ⟨tag, htag, w, hw, u, hu, rfl⟩
    obtain ⟨fs, rfl, -⟩ := get?_of_read_record hu
    exact ⟨tag, w, fs, htag, hw, hu, rfl⟩
  · rintro ⟨tag, w, fs, htag, hw, hu, rfl⟩
    exact ⟨tag, htag, w, hw, _, hu, rfl⟩

/-- A process in normal form names its own class. -/
theorem className_of_process {raw : Value} {p : Process} (h : process raw = .ok p) :
    p.header.className = some p.classTag.name := by
  obtain ⟨tag, normal, fs, htag, hnormal, hw, rfl⟩ := process_eq_ok_iff.mp h
  obtain ⟨_, _, boxed, -, -, -, rfl⟩ := exists_of_tree hnormal
  have hclass := get?_class_of_tree hnormal htag
  have hslot : Slot.optional "class" .text ∈ tag.record.slots := by
    cases tag <;> simp [ClassTag.record, RecordKind.slots, RecordKind.headerSlots]
  obtain ⟨w, hread, hget⟩ := exists_get?_of_read_record hw hslot hclass rfl
  -- The class is a text, which is kept and always written.
  obtain rfl : Value.string tag.name = w := by simpa [Slot.optional] using hread
  have hheader : (ProcessOf.ofTree tag (.mapping fs)).header = Header.ofTree (.mapping fs) := by
    cases tag <;> rfl
  have htag : (ProcessOf.ofTree tag (.mapping fs)).classTag = tag := by cases tag <;> rfl
  have hname : Entries.get? fs "class" = some (.string tag.name) := hget
  rw [hheader, htag, Header.ofTree]
  simp [hname, Value.text?, Value.string?]

end Normal

end CanonicalCwl
