import CanonicalCwl.Proofs.Process.Frame
import CanonicalCwl.Proofs.TypeExpr.Grammar

/-!
# The Normal Form Is Stable

A document in normal form is brought into normal form without a change. Each rule recognises what it
has done before: lists stay lists, the tree of a type is no notation of a type, and a boxed process
names no class. The one exception is the default of an input, which would be tagged once more.

- `Normal.normalField_of_normalField`: what a rule has done to a field is not changed again.
- `Normal.tree_of_tree`: a normal form is its own normal form.
-/

namespace CanonicalCwl

open Result Rewrite

/-! ## Lists -/

namespace Rewrite

variable {f : Value → Value} {tag : String} {v : Value}

/-- A list of records is no map any more. -/
theorem mapping?_listOfMap (tag : String) (v : Value) : (listOfMap tag v).mapping? = none := by
  cases v <;> rfl

/-- What is no map stays. -/
theorem listOfMap_eq_self (h : v.mapping? = none) : listOfMap tag v = v := by
  cases v with
  | mapping es => cases h
  | _ => rfl

/-- A list whose items are rewritten is no map if it was none. -/
theorem mapping?_onItems (f : Value → Value) (v : Value) : (onItems f v).mapping? = v.mapping? := by
  cases v <;> rfl

/-- Records that are not changed by a second rewrite. -/
theorem onItems_listOfMap_onItems
    (h : ∀ vs, (listOfMap tag v).sequence? = some vs → ∀ u ∈ vs, f (f u) = f u) :
    onItems f (listOfMap tag (onItems f (listOfMap tag v))) = onItems f (listOfMap tag v) := by
  rw [listOfMap_eq_self (v := onItems f (listOfMap tag v))
    (by rw [mapping?_onItems, mapping?_listOfMap])]
  cases hv : listOfMap tag v with
  | sequence vs =>
    simp only [onItems, List.map_map, Value.sequence.injEq, List.map_inj_left, Function.comp_apply]
    exact h vs (by rw [hv]; rfl)
  | _ => rfl

end Rewrite

/-- The tree of a type is no notation of a type. -/
theorem TypeExpr.resolve_toTree (context : String) (t t' : TypeExpr) :
    resolve context t.toTree ≠ .ok t' := by
  have htree : t.toTree.string? = none ∧ t.toTree.sequence? = none ∧
      t.toTree.text? "type" = none := by
    cases t <;> simp [toTree, Value.tagged, Value.string?, Value.sequence?, Value.text?, Value.get?,
      Entries.get?_cons]
  obtain ⟨hstring, hsequence, htype⟩ := htree
  rw [resolve_of_type_ne hstring hsequence fun word _ => by rw [htype]; simp]
  simp

namespace Rewritten

variable {R : Value → Value → Prop} {F : String → Value → Value → Prop} {tag k : String}
  {v w : Value}

/-! ## Records and lists that were rewritten -/

/-- A map or a list of records has become no map. -/
theorem Records.mapping?_eq_none (h : Records tag F v w) : w.mapping? = none := by
  cases h with
  | other h => exact h
  | _ => rfl

/-- A record is not changed again if its fields are not. -/
theorem Record.onEntries_eq {f : String → Value → Value} (h : Record F v w)
    (hf : ∀ es, v = .mapping es → ∀ k u, (k, u) ∈ es → ∀ w, F k u w → f k w = w) :
    onEntries (Entries.mapWithKey f) w = w := by
  cases h with
  | @fields es ws h =>
    refine congrArg Value.mapping (Entries.mapWithKey_eq_self fun k u hu => ?_)
    obtain ⟨⟨_, u'⟩, hu', rfl, hfield⟩ := exists_of_mem_right h hu
    exact hf es rfl _ _ hu' u hfield
  | other h =>
    cases v with
    | mapping es => cases h
    | _ => rfl

/-- A list is not changed again if its items are not. -/
theorem Items.onItems_eq {f : Value → Value} (h : Items R v w) (hf : ∀ v w, R v w → f w = w) :
    onItems f w = w := by
  cases h with
  | @items vs ws h =>
    refine congrArg Value.sequence (map_eq_self fun u hu => ?_)
    obtain ⟨v, -, hv⟩ := exists_of_mem_right h hu
    exact hf v u hv
  | other h =>
    cases v with
    | sequence vs => cases h
    | _ => rfl

/-! ## What was rewritten is not changed again -/

theorem Forced.listOfValue_eq (h : Forced v w) : listOfValue w = w := by
  cases h <;> rfl

theorem Text.string?_eq_none (h : Text k v w) : w.string? = none := by
  cases h with
  | text s => rfl
  | other h => exact h

theorem TypeTree.tagType_eq (h : TypeTree v w) : tagType w = w := by
  have hresolve : ∀ t, TypeExpr.resolve "" w ≠ .ok t := by
    cases h with
    | tree => exact TypeExpr.resolve_toTree "" _
    | other h => exact h
  rw [tagType]
  split
  next t ht => exact absurd ht (hresolve t)
  next => rfl

theorem ListField.forced_eq (h : ListField k v w) :
    (if k ∈ Normal.listFields then listOfValue w else w) = w := by
  cases h with
  | list hk h => rw [if_pos hk, h.listOfValue_eq]
  | kept hk => rw [if_neg hk]

/-- A field of a parameter is not changed again, unless it is a default that has been tagged. -/
theorem ParameterField.parameterField_eq {isInput : Bool} (h : ParameterField isInput k v w)
    (hdefault : isInput = true → k = "default" → v = .null) :
    Normal.parameterField isInput k w = w := by
  cases h with
  | list hk h => rw [Normal.parameterField_of_mem_listFields isInput w hk, h.listOfValue_eq]
  | type h => rw [Normal.parameterField_type, h.tagType_eq]
  | default hinput h =>
    obtain rfl := hdefault hinput rfl
    have hw : w = .null := by
      generalize hv : Value.null = v at h
      cases h with
      | null => rfl
      | tagged d => cases d <;> cases hv
    rw [hw, Normal.parameterField_default, if_pos hinput]
    rfl
  | outputBinding h =>
    rw [Normal.parameterField_outputBinding]
    exact h.onEntries_eq fun _ _ _ _ _ _ => ListField.forced_eq
  | kept _ hk hinput =>
    by_cases hkey : k = "default"
    · subst hkey
      rw [Normal.parameterField_default, if_neg fun h => hinput h rfl]
    · refine Normal.parameterField_eq_self isInput ?_ v
      simp_all

/-- What a step runs is not boxed again. -/
theorem Run.boxRun_eq (h : Run v w) (normal : Except LoadError Value) :
    Normal.boxRun w normal = .ok w := by
  cases h with
  | path s => rfl
  | @inline v w tag hclass h => cases tag <;> rfl
  | other hstring hclass =>
    cases v with
    | string s => cases hstring
    | mapping es =>
      rw [Normal.boxRun, if_neg]
      simpa [Entries.contains] using hclass
    | _ => rfl

end Rewritten

namespace Normal

variable {k : String} {v w : Value}

/-- An argument that is no text stays. -/
theorem argument_eq_self (h : v.string? = none) : argument v = v := by
  cases v with
  | string s => cases h
  | _ => rfl

/-- An output of a step that is no text stays. -/
theorem stepOutput_eq_self (h : v.string? = none) : stepOutput v = v := by
  cases v with
  | string s => cases h
  | _ => rfl

/-- A field of a step in normal form is not changed again. -/
theorem normalStepField_of_normalStepField (h : normalStepField k v = .ok w) :
    normalStepField k w = .ok w := by
  have hfield (hk : k ≠ "run") (heq : stepField k w = w) : normalStepField k w = .ok w := by
    rw [normalStepField_eq_stepField hk, heq]
  -- Each rule is one case. The inputs alone need the raw value, whose records are rewritten again.
  cases Rewritten.stepField_of_normalStepField h with
  | list hk hw =>
    refine hfield (ne_of_mem_of_not_mem hk (by decide)) ?_
    rw [stepField_of_mem_listFields w hk, hw.listOfValue_eq]
  | keyed hk hw =>
    refine hfield (ne_of_mem_of_not_mem hk (by decide)) ?_
    rw [stepField_of_mem_stepMapFields w hk, listOfMap_eq_self hw.mapping?_eq_none]
  | inputs _ =>
    rw [normalStepField_eq_stepField (by decide), stepField_in] at h
    obtain rfl := Except.ok.inj h
    refine hfield (by decide) ?_
    rw [stepField_in]
    refine onItems_listOfMap_onItems fun vs _ u _ => ?_
    exact (Rewritten.listField_record u).onEntries_eq fun _ _ _ _ _ _ =>
      Rewritten.ListField.forced_eq
  | outputs hw =>
    refine hfield (by decide) ?_
    rw [stepField_out]
    exact hw.onItems_eq fun _ _ hw => stepOutput_eq_self hw.string?_eq_none
  | run hw =>
    rw [normalStepField, boxedField, if_pos rfl, hw.boxRun_eq, Except.map,
      stepField_eq_self w (by decide)]
  | kept _ _ => exact h

/-- A step in normal form is not changed again. -/
theorem normalStep_of_normalStep (h : normalStep v = .ok w) : normalStep w = .ok w := by
  cases v with
  | mapping es =>
    obtain ⟨ws, hws, rfl⟩ := normalStep_eq_ok_iff.mp h
    refine normalStep_eq_ok_iff.mpr ⟨ws, List.forall₂_same.mpr fun e he => ⟨rfl, ?_⟩, rfl⟩
    obtain ⟨e', -, hkey, hfield⟩ := exists_of_mem_right hws he
    rw [hkey]
    exact normalStepField_of_normalStepField hfield
  | _ =>
    obtain rfl := Except.ok.inj h
    exact h

/-- The steps of a workflow in normal form are not changed again. -/
theorem normalField_steps_of_normalField (h : normalField .workflow "steps" v = .ok w) :
    normalField .workflow "steps" w = .ok w := by
  have hitems := Rewritten.items_of_normalField_steps h
  rw [← normalField_steps_listOfMap] at h
  generalize listOfMap "type" v = list at hitems h
  cases hitems with
  | @items vs ws hws =>
    refine normalField_steps_sequence.mpr ⟨ws, List.forall₂_same.mpr fun u hu => ?_, rfl⟩
    obtain ⟨v, -, hu⟩ := exists_of_mem_right hws hu
    exact normalStep_of_normalStep hu
  | other _ => exact h

/-- A parameter in normal form is not changed again, unless its default has been tagged. -/
theorem parameter_parameter {isInput : Bool} {p : Value} (hp : p.WellFormed)
    (hdefault : isInput = true → ∀ d, p.get? "default" = some d → d = .null) :
    parameter isInput (parameter isInput p) = parameter isInput p := by
  rw [parameter_eq_onEntries]
  refine (Rewritten.record_onEntries (Rewritten.parameterField isInput) p).onEntries_eq ?_
  rintro es rfl k u hu w hw
  refine hw.parameterField_eq fun hinput hk => hdefault hinput u ?_
  rw [Value.WellFormed] at hp
  exact (Entries.mem_iff_get? hp.1).mp (hk ▸ hu)

/-- Parameters in normal form are not changed again, unless a default has been tagged. -/
theorem parameters_of_parameters {isInput : Bool} (hv : v.WellFormed)
    (hdefault : isInput = true → ∀ ps, (listOfMap "type" v).sequence? = some ps →
      ∀ p ∈ ps, ∀ d, p.get? "default" = some d → d = .null) :
    onItems (parameter isInput) (listOfMap "type" (onItems (parameter isInput)
      (listOfMap "type" v))) = onItems (parameter isInput) (listOfMap "type" v) := by
  refine onItems_listOfMap_onItems fun ps hps p hp => ?_
  refine parameter_parameter ?_ fun hinput => hdefault hinput ps hps p hp
  have hlist : (listOfMap "type" v).WellFormed := wellFormed_listOfMap (by decide) hv
  cases hv : listOfMap "type" v with
  | sequence vs =>
    rw [hv] at hps hlist
    obtain rfl := Option.some.inj hps
    exact Value.wellFormedItems_iff.mp hlist p hp
  | _ => simp [hv, Value.sequence?] at hps

/-- A field of a process in normal form is not changed again, unless it holds inputs of which a
default has been tagged. -/
theorem normalField_of_normalField {tag : ClassTag} (h : normalField tag k v = .ok w)
    (hv : v.WellFormed)
    (hdefault : k = "inputs" → ∀ ps, (listOfMap "type" v).sequence? = some ps →
      ∀ p ∈ ps, ∀ d, p.get? "default" = some d → d = .null) :
    normalField tag k w = .ok w := by
  have hfield (hk : k ≠ "steps") (heq : field tag k w = w) : normalField tag k w = .ok w := by
    rw [normalField_eq_field (fun h => hk h.2), heq]
  -- Each rule is one case. The parameters alone need the raw value, for the sake of the defaults.
  cases Rewritten.processField_of_normalField h with
  | list hk hw =>
    refine hfield (ne_of_mem_of_not_mem hk (by decide)) ?_
    rw [field_of_mem_listFields tag w hk, hw.listOfValue_eq]
  | inputs _ =>
    rw [normalField_eq_field (by simp), field_inputs] at h
    obtain rfl := Except.ok.inj h
    refine hfield (by decide) ?_
    rw [field_inputs]
    exact parameters_of_parameters hv fun _ => hdefault rfl
  | outputs _ =>
    rw [normalField_eq_field (by simp), field_outputs] at h
    obtain rfl := Except.ok.inj h
    refine hfield (by decide) ?_
    rw [field_outputs]
    exact parameters_of_parameters hv nofun
  | keyed hk hw =>
    refine hfield (ne_of_mem_of_not_mem hk (by decide)) ?_
    rw [field_of_mem_stepMapFields tag w hk, listOfMap_eq_self hw.mapping?_eq_none]
  | arguments htag hw =>
    subst htag
    refine hfield (by decide) ?_
    rw [field_arguments]
    exact hw.onItems_eq fun _ _ hw => argument_eq_self hw.string?_eq_none
  | steps htag _ =>
    subst htag
    exact normalField_steps_of_normalField h
  | kept _ _ _ => exact h

/-- A document in normal form is its own normal form, unless an input of the raw document has a
default. -/
theorem tree_of_tree {doc out : Value} (hdoc : doc.WellFormed) (h : tree doc = .ok out)
    (hdefault : ∀ p ∈ doc.recordsAt "inputs", ∀ d, p.get? "default" = some d → d = .null) :
    tree out = .ok out := by
  cases doc with
  | mapping es =>
    rw [Value.WellFormed, Value.wellFormedEntries_iff] at hdoc
    obtain ⟨hdistinct, hvalues⟩ := hdoc
    obtain ⟨tag, htag, ws, hws, rfl⟩ := tree_eq_ok_iff.mp h
    have hclass : ClassTag.ofDocument (.mapping ws) = .ok tag :=
      ClassTag.ofDocument_eq_ok_iff.mpr (get?_class_of_tree h htag)
    refine tree_eq_ok_iff.mpr ⟨tag, hclass, ws, List.forall₂_same.mpr ?_, rfl⟩
    -- Every field has become what it is, and stays so.
    rintro ⟨k, w⟩ hw
    refine ⟨rfl, ?_⟩
    obtain ⟨⟨_, v⟩, hv, rfl, hfield⟩ := exists_of_mem_right hws hw
    refine normalField_of_normalField hfield (hvalues _ hv) ?_
    rintro rfl ps hps p hp
    refine hdefault p ?_
    have hget : Entries.get? es "inputs" = some v := (Entries.mem_iff_get? hdistinct).mp hv
    simpa [Value.recordsAt, hget, hps] using hp
  | _ => cases h

/-- The workflow that keys its inputs and its steps has a normal form that is its own. The only
default in it is null. -/
theorem tree_of_tree_keyedFlow :
    keyedFlow.WellFormed ∧
      (∀ p ∈ keyedFlow.recordsAt "inputs", ∀ d, p.get? "default" = some d → d = .null) ∧
      ∃ out, tree keyedFlow = .ok out ∧ out ≠ keyedFlow ∧ tree out = .ok out := by
  have hdoc : keyedFlow.WellFormed := by
    simp [keyedFlow, Value.WellFormed, Value.WellFormedEntries, Value.WellFormedItems,
      Entries.Distinct, Entries.keys]
  have hdefault :
      ∀ p ∈ keyedFlow.recordsAt "inputs", ∀ d, p.get? "default" = some d → d = .null := by
    simp [keyedFlow, Value.recordsAt, Value.get?, Entries.get?_cons, listOfMap, keyedEntry,
      Entries.insert, Entries.erase, Value.sequence?]
  have htree : tree keyedFlow = .ok _ := rfl
  exact ⟨hdoc, hdefault, _, htree, by decide, tree_of_tree hdoc htree hdefault⟩

end Normal

end CanonicalCwl
