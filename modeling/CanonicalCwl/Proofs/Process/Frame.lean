import CanonicalCwl.Proofs.Process.Fieldwise

/-!
# What the Tree Stage Keeps

Bringing a document into normal form neither loses nor reorders nor invents anything. The keys of
the document, of its parameters and of its steps stay as they are and in their order, lists keep
their items, and a map keyed by id becomes the list of its entries. The value under a key that no
rule names is not changed, and what the rules do to the others is said here, rule by rule.

- `Rewritten.ProcessField`: what a field of a process may become.
- `Normal.keeps_of_tree`: a document in normal form has the fields of the raw one.
-/

namespace CanonicalCwl

open Result Rewrite

namespace Rewritten

/-! ## Records and lists -/

/-- The entries keep their keys and their order, and every value becomes another in a way that its
key allows. -/
def Fieldwise (F : String → Value → Value → Prop) (es ws : Mapping) : Prop :=
  List.Forall₂ (fun e w => w.1 = e.1 ∧ F e.1 e.2 w.2) es ws

/-- The keys and their order are kept. -/
theorem Fieldwise.keys_eq {F : String → Value → Value → Prop} {es ws : Mapping}
    (h : Fieldwise F es ws) : Entries.keys ws = Entries.keys es := by
  induction h with
  | nil => rfl
  | cons hfield _ ih => rw [Entries.keys, List.map_cons, hfield.1, ← Entries.keys, ih]; rfl

/-- A record is rewritten field by field; a node that is no mapping stays. -/
inductive Record (F : String → Value → Value → Prop) : Value → Value → Prop
  | fields {es ws : Mapping} (h : Fieldwise F es ws) : Record F (.mapping es) (.mapping ws)
  | other {v : Value} (h : v.mapping? = none) : Record F v v

/-- A list is rewritten item by item; a node that is no sequence stays. -/
inductive Items (R : Value → Value → Prop) : Value → Value → Prop
  | items {vs ws : List Value} (h : List.Forall₂ R vs ws) : Items R (.sequence vs) (.sequence ws)
  | other {v : Value} (h : v.sequence? = none) : Items R v v

/-- An entry of a map keyed by id becomes a record with its key as the `id`, in front of its other
fields. If it is not a mapping, its value becomes the only other field, under the key `tag`. -/
inductive KeyedEntry (tag : String) (F : String → Value → Value → Prop) (id : String) :
    Value → Value → Prop
  | record {es ws : Mapping} (h : Fieldwise F (Entries.erase es "id") ws) :
      KeyedEntry tag F id (.mapping es) (.mapping (("id", .string id) :: ws))
  | alone {v w : Value} (hv : v.mapping? = none) (h : F tag v w) :
      KeyedEntry tag F id v (.mapping [("id", .string id), (tag, w)])

/-- A map keyed by id becomes the list of its entries, and a list keeps its items. -/
inductive Records (tag : String) (F : String → Value → Value → Prop) : Value → Value → Prop
  | keyed {es : Mapping} {ws : List Value}
      (h : List.Forall₂ (fun e w => KeyedEntry tag F e.1 e.2 w) es ws) :
      Records tag F (.mapping es) (.sequence ws)
  | listed {vs ws : List Value} (h : List.Forall₂ (Record F) vs ws) :
      Records tag F (.sequence vs) (.sequence ws)
  | other {v : Value} (hmapping : v.mapping? = none) (hsequence : v.sequence? = none) :
      Records tag F v v

/-- A list stays, null becomes the empty list, and any other node the list of it. -/
inductive Forced : Value → Value → Prop
  | list (vs : List Value) : Forced (.sequence vs) (.sequence vs)
  | null : Forced .null (.sequence [])
  | single {v : Value} (hnull : v ≠ .null) (hsequence : v.sequence? = none) :
      Forced v (.sequence [v])

/-- A text becomes the record with this one field; any other node stays. -/
inductive Text (key : String) : Value → Value → Prop
  | text (s : String) : Text key (.string s) (.mapping [(key, .string s)])
  | other {v : Value} (h : v.string? = none) : Text key v v

/-! ## The rules -/

/-- A field of an output binding or of an input of a step. -/
inductive ListField : String → Value → Value → Prop
  | list {k : String} {v w : Value} (hk : k ∈ Normal.listFields) (h : Forced v w) :
      ListField k v w
  | kept {k : String} (v : Value) (hk : k ∉ Normal.listFields) : ListField k v v

/-- A field of a hint or of a requirement. -/
inductive Kept : String → Value → Value → Prop
  | kept (k : String) (v : Value) : Kept k v v

/-- A type becomes the tree of what it is the notation of; a node that is no notation stays. -/
inductive TypeTree : Value → Value → Prop
  | tree {v : Value} {t : TypeExpr} (h : TypeExpr.resolve "" v = .ok t) : TypeTree v t.toTree
  | other {v : Value} (h : ∀ t, TypeExpr.resolve "" v ≠ .ok t) : TypeTree v v

/-- A default is put under the tag of its kind as it is; null stays. -/
inductive Default : Value → Value → Prop
  | null : Default .null .null
  | tagged (d : DataValue) : Default d.toValue d.toTree

/-- A field of a parameter. -/
inductive ParameterField (isInput : Bool) : String → Value → Value → Prop
  | list {k : String} {v w : Value} (hk : k ∈ Normal.listFields) (h : Forced v w) :
      ParameterField isInput k v w
  | type {v w : Value} (h : TypeTree v w) : ParameterField isInput "type" v w
  | default {v w : Value} (hinput : isInput = true) (h : Default v w) :
      ParameterField isInput "default" v w
  | outputBinding {v w : Value} (h : Record ListField v w) :
      ParameterField isInput "outputBinding" v w
  | kept {k : String} (v : Value) (hk : k ∉ "type" :: "outputBinding" :: Normal.listFields)
      (hdefault : isInput = true → k ≠ "default") : ParameterField isInput k v v

/-- What a step runs: a text becomes a path, and a document is put in normal form under the tag of
its class. Any other node stays. -/
inductive Run : Value → Value → Prop
  | path (s : String) : Run (.string s) (.mapping [("path", .string s)])
  | inline {v w : Value} {tag : ClassTag} (hclass : ClassTag.ofDocument v = .ok tag)
      (h : Normal.tree v = .ok w) : Run v (.mapping [(tag.arm, w)])
  | other {v : Value} (hstring : v.string? = none) (hclass : v.get? "class" = none) : Run v v

/-- A field of a step. -/
inductive StepField : String → Value → Value → Prop
  | list {k : String} {v w : Value} (hk : k ∈ Normal.listFields) (h : Forced v w) :
      StepField k v w
  | keyed {k : String} {v w : Value} (hk : k ∈ Normal.stepMapFields)
      (h : Records "type" Kept v w) : StepField k v w
  | inputs {v w : Value} (h : Records "source" ListField v w) : StepField "in" v w
  | outputs {v w : Value} (h : Items (Text "id") v w) : StepField "out" v w
  | run {v w : Value} (h : Run v w) : StepField "run" v w
  | kept {k : String} (v : Value)
      (hk : k ∉ "run" :: "in" :: "out" :: Normal.stepMapFields ++ Normal.listFields) :
      StepField k v v

/-- A field of a process of a class. -/
inductive ProcessField (tag : ClassTag) : String → Value → Value → Prop
  | list {k : String} {v w : Value} (hk : k ∈ Normal.listFields) (h : Forced v w) :
      ProcessField tag k v w
  | inputs {v w : Value} (h : Records "type" (ParameterField true) v w) :
      ProcessField tag "inputs" v w
  | outputs {v w : Value} (h : Records "type" (ParameterField false) v w) :
      ProcessField tag "outputs" v w
  | keyed {k : String} {v w : Value} (hk : k ∈ ["hints", "requirements"])
      (h : Records "type" Kept v w) : ProcessField tag k v w
  | arguments {v w : Value} (htag : tag = .commandLineTool) (h : Items (Text "valueFrom") v w) :
      ProcessField tag "arguments" v w
  | steps {v w : Value} (htag : tag = .workflow) (h : Records "type" StepField v w) :
      ProcessField tag "steps" v w
  | kept {k : String} (v : Value) (hk : k ∉ Normal.mapFields tag ++ Normal.listFields)
      (harguments : tag = .commandLineTool → k ≠ "arguments") : ProcessField tag k v v

/-! ## Records and lists that are rewritten -/

section

variable {R : Value → Value → Prop} {F : String → Value → Value → Prop} {tag id : String}
  {v w : Value}

/-- A record whose fields are rewritten one by one. -/
theorem record_onEntries {f : String → Value → Value} (hf : ∀ k v, F k v (f k v)) (v : Value) :
    Record F v (onEntries (Entries.mapWithKey f) v) := by
  cases v with
  | mapping es =>
    refine .fields (List.forall₂_map_right_iff.mpr (List.forall₂_same.mpr ?_))
    exact fun e _ => ⟨rfl, hf e.1 e.2⟩
  | _ => exact .other rfl

/-- A list whose items are rewritten one by one. -/
theorem items_onItems {f : Value → Value} (hf : ∀ v, R v (f v)) (v : Value) :
    Items R v (onItems f v) := by
  cases v with
  | sequence vs =>
    exact .items (List.forall₂_map_right_iff.mpr (List.forall₂_same.mpr fun v _ => hf v))
  | _ => exact .other rfl

/-- A list that stays as it is. -/
theorem items_self (hR : ∀ v, R v v) (v : Value) : Items R v v := by
  cases v with
  | sequence vs => exact .items (List.forall₂_same.mpr fun v _ => hR v)
  | _ => exact .other rfl

/-- A list whose items are rewritten in one way is rewritten in any way that follows from it. -/
theorem Items.imp {R' : Value → Value → Prop} (h : Items R v w) (hR : ∀ v w, R v w → R' v w) :
    Items R' v w := by
  cases h with
  | items h => exact .items (h.imp hR)
  | other h => exact .other h

/-- An entry of a map that is first listed, and then rewritten as a record. -/
theorem keyedEntry_of_record (htag : tag ≠ "id") (hid : ∀ {v w}, F "id" v w → w = v)
    (h : Record F (Rewrite.keyedEntry tag id v) w) : KeyedEntry tag F id v w := by
  by_cases hv : v.mapping? = none
  · rw [keyedEntry_alone htag id hv] at h
    cases h with
    | fields h =>
      -- The record has the id first, which stays, and then the field `tag`.
      obtain ⟨⟨_, w⟩, ws, ⟨rfl, hw⟩, hws, rfl⟩ := List.forall₂_cons_left_iff.mp h
      obtain ⟨⟨_, u⟩, _, ⟨rfl, hu⟩, hnil, rfl⟩ := List.forall₂_cons_left_iff.mp hws
      obtain rfl := List.forall₂_nil_left_iff.mp hnil
      obtain rfl := hid hw
      exact .alone hv hu
    | other h => cases h
  · cases v with
    | mapping es =>
      cases h with
      | fields h =>
        obtain ⟨⟨_, w⟩, ws, ⟨rfl, hw⟩, hws, rfl⟩ := List.forall₂_cons_left_iff.mp h
        obtain rfl := hid hw
        exact .record hws
      | other h => cases h
    | _ => exact absurd rfl hv

/-- A map or a list of records that is first listed, and then rewritten record by record. -/
theorem records_of_items (htag : tag ≠ "id") (hid : ∀ {v w}, F "id" v w → w = v)
    (h : Items (Record F) (listOfMap tag v) w) : Records tag F v w := by
  cases v with
  | mapping es =>
    cases h with
    | items h =>
      refine .keyed ((List.forall₂_map_left_iff.mp h).imp fun _ _ h => ?_)
      exact keyedEntry_of_record htag hid h
    | other h => cases h
  | sequence vs =>
    cases h with
    | items h => exact .listed h
    | other h => cases h
  | _ =>
    cases h
    exact .other rfl rfl

end

/-! ## The rules are followed -/

section

variable {k : String} {v w : Value}

theorem forced_listOfValue (v : Value) : Forced v (listOfValue v) := by
  cases v with
  | sequence vs => exact .list vs
  | null => exact .null
  | _ => exact .single nofun rfl

theorem text_argument (v : Value) : Text "valueFrom" v (Normal.argument v) := by
  cases v with
  | string s => exact .text s
  | _ => exact .other rfl

theorem text_stepOutput (v : Value) : Text "id" v (Normal.stepOutput v) := by
  cases v with
  | string s => exact .text s
  | _ => exact .other rfl

theorem typeTree_tagType (v : Value) : TypeTree v (tagType v) := by
  rw [tagType]
  split
  next t ht => exact .tree ht
  next d hd => exact .other fun t ht => by simp [hd] at ht

theorem default_coerceDefault (v : Value) : Default v (coerceDefault v) := by
  cases v with
  | null => exact .null
  | string s => exact .tagged (.string s)
  | mapping es => exact .tagged (.struct es)
  | sequence vs => exact .tagged (.list vs)
  | float x => exact .tagged (.float x)
  | int i => exact .tagged (.int i)
  | bool b => exact .tagged (.bool b)

theorem listField_record (v : Value) :
    Record ListField v (onEntries (forceList Normal.listFields) v) := by
  refine record_onEntries (fun k v => ?_) v
  split
  next hk => exact .list hk (forced_listOfValue v)
  next hk => exact .kept v hk

/-- A map of hints or of requirements is listed, and its records stay. -/
theorem records_listOfMap (v : Value) : Records "type" Kept v (listOfMap "type" v) := by
  refine records_of_items (by decide) (fun h => ?_) (items_self (fun v => ?_) _)
  · cases h
    rfl
  · cases v with
    | mapping es => exact .fields (List.forall₂_same.mpr fun e _ => ⟨rfl, .kept e.1 e.2⟩)
    | _ => exact .other rfl

/-- The inputs of a step are listed, and their fields are forced to be lists. -/
theorem records_stepInputs (v : Value) :
    Records "source" ListField v
      (onItems (onEntries (forceList Normal.listFields)) (listOfMap "source" v)) := by
  refine records_of_items (by decide) (fun h => ?_) (items_onItems listField_record _)
  cases h with
  | list hk _ => exact absurd hk (by decide)
  | kept => rfl

theorem parameterField (isInput : Bool) (k : String) (v : Value) :
    ParameterField isInput k v (Normal.parameterField isInput k v) := by
  by_cases hlist : k ∈ Normal.listFields
  · rw [Normal.parameterField_of_mem_listFields isInput v hlist]
    exact .list hlist (forced_listOfValue v)
  by_cases htype : k = "type"
  · subst htype
    rw [Normal.parameterField_type]
    exact .type (typeTree_tagType v)
  by_cases hbinding : k = "outputBinding"
  · subst hbinding
    rw [Normal.parameterField_outputBinding]
    exact .outputBinding (listField_record v)
  have hk : k ∉ "type" :: "outputBinding" :: Normal.listFields := by simp [htype, hbinding, hlist]
  by_cases hdefault : k = "default"
  · subst hdefault
    rw [Normal.parameterField_default]
    split
    next hinput => exact .default hinput (default_coerceDefault v)
    next hinput => exact .kept v hk fun h => absurd h hinput
  · rw [Normal.parameterField_eq_self isInput (by simp [htype, hbinding, hdefault, hlist])]
    exact .kept v hk fun _ => hdefault

/-- The id of a parameter stays. -/
theorem ParameterField.eq_of_id {isInput : Bool} (h : ParameterField isInput "id" v w) : w = v := by
  generalize hk : "id" = k at h
  cases h with
  | list hlist _ => exact absurd (hk ▸ hlist) (by decide)
  | kept => rfl
  | _ => exact absurd hk (by decide)

theorem records_parameters (isInput : Bool) (v : Value) :
    Records "type" (ParameterField isInput) v
      (onItems (Normal.parameter isInput) (listOfMap "type" v)) := by
  rw [Normal.parameter_eq_onEntries]
  exact records_of_items (by decide) ParameterField.eq_of_id
    (items_onItems (record_onEntries (parameterField isInput)) _)

/-- What a step runs is boxed by the rule. -/
theorem run_of_boxRun (h : Normal.boxRun v (Normal.tree v) = .ok w) : Run v w := by
  cases v with
  | string s =>
    obtain rfl := Except.ok.inj h
    exact .path s
  | mapping es =>
    rw [Normal.boxRun] at h
    split at h
    next hclass =>
      simp only [bind_eq_ok_iff, pure_eq_ok_iff] at h
      obtain ⟨tag, htag, w, hw, rfl⟩ := h
      exact .inline htag hw
    next hclass =>
      obtain rfl := Except.ok.inj h
      exact .other rfl (by simpa [Entries.contains] using hclass)
  | _ =>
    obtain rfl := Except.ok.inj h
    exact .other rfl rfl

/-- The fields of a step follow the rules. -/
theorem stepField_of_normalStepField (h : Normal.normalStepField k v = .ok w) :
    StepField k v w := by
  -- What is run is boxed and not rewritten; every other field is rewritten by its key.
  by_cases hrun : k = "run"
  · subst hrun
    rw [Normal.normalStepField, Normal.boxedField, if_pos rfl, map_eq_ok_iff] at h
    obtain ⟨b, hb, rfl⟩ := h
    rw [Normal.stepField_eq_self _ (by decide)]
    exact .run (run_of_boxRun hb)
  rw [Normal.normalStepField_eq_stepField hrun] at h
  obtain rfl := Except.ok.inj h
  by_cases hlist : k ∈ Normal.listFields
  · rw [Normal.stepField_of_mem_listFields v hlist]
    exact .list hlist (forced_listOfValue v)
  by_cases hmap : k ∈ Normal.stepMapFields
  · rw [Normal.stepField_of_mem_stepMapFields v hmap]
    exact .keyed hmap (records_listOfMap v)
  by_cases hin : k = "in"
  · subst hin
    rw [Normal.stepField_in]
    exact .inputs (records_stepInputs v)
  by_cases hout : k = "out"
  · subst hout
    rw [Normal.stepField_out]
    exact .outputs (items_onItems text_stepOutput v)
  rw [Normal.stepField_eq_self v (by simp [hin, hout, hmap, hlist])]
  exact .kept v (by simp [hrun, hin, hout, hmap, hlist])

/-- The id of a step stays. -/
theorem StepField.eq_of_id (h : StepField "id" v w) : w = v := by
  generalize hk : "id" = k at h
  cases h with
  | list hlist _ => exact absurd (hk ▸ hlist) (by decide)
  | keyed hmap _ => exact absurd (hk ▸ hmap) (by decide)
  | kept => rfl
  | _ => exact absurd hk (by decide)

/-- A step follows the rules. -/
theorem record_of_normalStep (h : Normal.normalStep v = .ok w) : Record StepField v w := by
  cases v with
  | mapping es =>
    obtain ⟨ws, hws, rfl⟩ := Normal.normalStep_eq_ok_iff.mp h
    exact .fields (hws.imp fun _ _ h => ⟨h.1, stepField_of_normalStepField h.2⟩)
  | _ =>
    obtain rfl := Except.ok.inj h
    exact .other rfl

/-- The steps of a workflow are brought into normal form one by one once they are listed. -/
theorem items_of_normalField_steps (h : Normal.normalField .workflow "steps" v = .ok w) :
    Items (fun v w => Normal.normalStep v = .ok w) (listOfMap "type" v) w := by
  -- Keyed steps have the normal form of the list of them, so that only lists are left.
  rw [← Normal.normalField_steps_listOfMap] at h
  cases hv : listOfMap "type" v with
  | sequence vs =>
    rw [hv] at h
    obtain ⟨ws, hws, rfl⟩ := Normal.normalField_steps_sequence.mp h
    exact .items hws
  | mapping es => cases v <;> simp [listOfMap] at hv
  | _ =>
    rw [hv] at h
    obtain rfl := Except.ok.inj h
    exact .other rfl

/-- The steps of a workflow follow the rules. -/
theorem records_of_normalField_steps (h : Normal.normalField .workflow "steps" v = .ok w) :
    Records "type" StepField v w :=
  records_of_items (by decide) StepField.eq_of_id
    ((items_of_normalField_steps h).imp fun _ _ => record_of_normalStep)

/-- The fields of a process follow the rules. -/
theorem processField_of_normalField {tag : ClassTag} (h : Normal.normalField tag k v = .ok w) :
    ProcessField tag k v w := by
  -- The steps are boxed before they are rewritten; every other field is rewritten by its key.
  by_cases hsteps : tag = .workflow ∧ k = "steps"
  · obtain ⟨rfl, rfl⟩ := hsteps
    exact .steps rfl (records_of_normalField_steps h)
  rw [Normal.normalField_eq_field hsteps] at h
  obtain rfl := Except.ok.inj h
  by_cases hlist : k ∈ Normal.listFields
  · rw [Normal.field_of_mem_listFields tag v hlist]
    exact .list hlist (forced_listOfValue v)
  by_cases hmap : k ∈ Normal.stepMapFields
  · rw [Normal.field_of_mem_stepMapFields tag v hmap]
    exact .keyed hmap (records_listOfMap v)
  by_cases hinputs : k = "inputs"
  · subst hinputs
    rw [Normal.field_inputs]
    exact .inputs (records_parameters true v)
  by_cases houtputs : k = "outputs"
  · subst houtputs
    rw [Normal.field_outputs]
    exact .outputs (records_parameters false v)
  by_cases harguments : tag = .commandLineTool ∧ k = "arguments"
  · obtain ⟨rfl, rfl⟩ := harguments
    rw [Normal.field_arguments]
    exact .arguments rfl (items_onItems text_argument v)
  have hkept : k ∉ Normal.mapFields tag ++ Normal.listFields := by
    simp only [Normal.stepMapFields, List.mem_cons, List.not_mem_nil, or_false, not_or] at hmap
    cases tag <;> simp_all [Normal.mapFields]
  have hargs : tag = .commandLineTool → k ≠ "arguments" := fun htag hk => harguments ⟨htag, hk⟩
  rw [Normal.field_eq_self tag v hkept hargs]
  exact .kept v hkept hargs

end

end Rewritten

/-! ## Documents -/

/-- A document and its normal form have the same keys in the same order, and the value under each
key becomes another by the rule for this key, or stays. -/
theorem Normal.keeps_of_tree {doc out : Value} (h : tree doc = .ok out) :
    ∃ tag es ws, ClassTag.ofDocument doc = .ok tag ∧ doc = .mapping es ∧ out = .mapping ws ∧
      Entries.keys ws = Entries.keys es ∧
      Rewritten.Fieldwise (Rewritten.ProcessField tag) es ws := by
  cases doc with
  | mapping es =>
    obtain ⟨tag, htag, ws, hws, rfl⟩ := tree_eq_ok_iff.mp h
    have hfields : Rewritten.Fieldwise (Rewritten.ProcessField tag) es ws :=
      hws.imp fun _ _ h => ⟨h.1, Rewritten.processField_of_normalField h.2⟩
    exact ⟨tag, es, ws, htag, rfl, rfl, hfields.keys_eq, hfields⟩
  | _ => cases h

/-- A workflow that keys its inputs, its hints and its steps, and runs a tool inline. What is in
the hint looks like the fields of a process. -/
def keyedFlow : Value :=
  .mapping [("class", .string "Workflow"),
    ("inputs", .mapping [("text", .string "string?"),
      ("times", .mapping [("doc", .string "How often."), ("id", .null), ("default", .null)])]),
    ("hints", .mapping [("Note", .mapping [("source", .string "a"), ("type", .string "int[]")])]),
    ("steps", .mapping [("say", .mapping [
      ("run", .mapping [("class", .string "CommandLineTool"), ("arguments", .string "-n")]),
      ("in", .mapping [("message", .string "text")]), ("out", .sequence [.string "said"])])]),
    ("label", .string "Echo")]

/-- The workflow keeps its keys, and nothing in its hint is rewritten. -/
theorem Normal.keeps_of_tree_keyedFlow :
    ∃ es ws, keyedFlow = .mapping es ∧ tree keyedFlow = .ok (.mapping ws) ∧
      Entries.keys ws = ["class", "inputs", "hints", "steps", "label"] ∧
      Entries.get? ws "hints" = some (.sequence [.mapping [("id", .string "Note"),
        ("source", .string "a"), ("type", .string "int[]")]]) ∧
      Rewritten.Fieldwise (Rewritten.ProcessField .workflow) es ws := by
  have htree : tree keyedFlow = .ok _ := rfl
  obtain ⟨tag, es, ws, hclass, hes, hws, hkeys, hfields⟩ := keeps_of_tree htree
  obtain rfl : ClassTag.workflow = tag := Except.ok.inj hclass
  obtain rfl := Value.mapping.inj hes
  obtain rfl := Value.mapping.inj hws
  exact ⟨_, _, rfl, htree, hkeys, rfl, hfields⟩

end CanonicalCwl
