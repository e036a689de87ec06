import CanonicalCwl.Proofs.Process.Canonical

/-!
# The Tree Stage, Field by Field

The tree stage boxes the steps of a workflow and then rewrites the fields in several passes. What
becomes of a field depends on that field alone, and so the normal form of a process, and of each
of its steps, is put together from the normal forms of its fields.

- `Value.recordsAt`: the records under a key, which may be keyed by id.
- `Normal.parameterField_type` and its like: what becomes of a field, by its key.
- `Normal.tree_eq_ok_iff`: the normal form of a process, field by field.
- `Normal.normalStep_eq_ok_iff`: the normal form of a step, field by field.
-/

namespace CanonicalCwl

open Result

namespace Entries

/-- The values of entries become those of others, one by one. -/
def Becomes (f : String → Value → Except LoadError Value) (es ws : Mapping) : Prop :=
  List.Forall₂ (fun e w => w.1 = e.1 ∧ f e.1 e.2 = .ok w.2) es ws

variable {f : String → Value → Except LoadError Value} {es ws : Mapping}

@[simp] theorem becomes_nil_iff : Becomes f [] ws ↔ ws = [] := List.forall₂_nil_left_iff

/-- The first entry becomes the first one. -/
theorem becomes_cons_iff {k : String} {v : Value} :
    Becomes f ((k, v) :: es) ws ↔
      ∃ w, f k v = .ok w ∧ ∃ ws', Becomes f es ws' ∧ (k, w) :: ws' = ws := by
  rw [Becomes, List.forall₂_cons_left_iff]
  constructor
  · rintro ⟨⟨_, w⟩, ws', ⟨rfl, hw⟩, hws, rfl⟩
    exact ⟨w, hw, ws', hws, rfl⟩
  · rintro ⟨w, hw, ws', hws, rfl⟩
    exact ⟨(k, w), ws', ⟨rfl, hw⟩, hws, rfl⟩

/-- A recursion that goes through the entries one by one. -/
theorem eq_ok_iff_becomes {F : List (String × Value) → Except LoadError Mapping}
    (hnil : F [] = .ok [])
    (hcons : ∀ k v rest, F ((k, v) :: rest) = do let w ← f k v; return (k, w) :: (← F rest)) :
    F es = .ok ws ↔ Becomes f es ws := by
  induction es generalizing ws with
  | nil => simp [hnil, eq_comm]
  | cons e es ih =>
    obtain ⟨k, v⟩ := e
    simp only [hcons, becomes_cons_iff, bind_eq_ok_iff, pure_eq_ok_iff, ih]

/-- A recursion that goes through the entries one by one fails at the first one that fails. -/
theorem error?_eq_findSome? {f : String → Value → Except LoadError Value}
    {F : List (String × Value) → Except LoadError Mapping} (hnil : F [] = .ok [])
    (hcons : ∀ k v rest, F ((k, v) :: rest) = do let w ← f k v; return (k, w) :: (← F rest))
    (es : Mapping) : error? (F es) = es.findSome? fun e => error? (f e.1 e.2) := by
  induction es with
  | nil => rw [hnil]; rfl
  | cons e es ih =>
    obtain ⟨k, v⟩ := e
    rw [hcons, List.findSome?_cons, ← ih, error?_bind fun w => error?_bind_pure _ _]
    cases error? (f k v) <;> rfl

/-- What a lookup finds becomes what it finds afterwards. -/
theorem Becomes.exists_get? (h : Becomes f es ws) {k : String} {v : Value}
    (hv : get? es k = some v) : ∃ w, f k v = .ok w ∧ get? ws k = some w := by
  induction h with
  | nil => cases hv
  | @cons e w es ws hw _ ih =>
    obtain ⟨k', v'⟩ := e
    obtain ⟨_, w⟩ := w
    obtain ⟨rfl, hw⟩ := hw
    rw [get?_cons] at hv ⊢
    split at hv
    next hk =>
      subst hk
      obtain rfl := Option.some.inj hv
      exact ⟨w, hw, if_pos rfl⟩
    next hk =>
      rw [if_neg hk]
      exact ih hv

/-- Values may be rewritten after they became others. -/
theorem becomes_map_iff {g : String → Value → Value} :
    Becomes (fun k v => (f k v).map (g k)) es ws ↔
      ∃ bs, Becomes f es bs ∧ mapWithKey g bs = ws := by
  refine .trans (Eq.to_iff (congrArg (List.Forall₂ · es ws) ?_)) exists_forall₂_map_iff.symm
  funext ⟨k, v⟩ ⟨k', w⟩
  simp only [map_eq_ok_iff, Prod.mk.injEq, eq_iff_iff]
  constructor
  · rintro ⟨rfl, b, hb, rfl⟩
    exact ⟨(k', b), ⟨rfl, hb⟩, rfl, rfl⟩
  · rintro ⟨⟨_, b⟩, ⟨rfl, hb⟩, rfl, rfl⟩
    exact ⟨rfl, b, hb, rfl⟩

/-- Values may be put together with their keys after they became others. -/
theorem forall₂_map_iff {f : Value → Except LoadError Value} {g : String → Value → Value}
    {vs : List Value} :
    List.Forall₂ (fun e w => ∃ b, f e.2 = .ok b ∧ g e.1 b = w) es vs ↔
      ∃ bs, Becomes (fun _ => f) es bs ∧ bs.map (fun b => g b.1 b.2) = vs := by
  refine .trans (Eq.to_iff (congrArg (List.Forall₂ · es vs) ?_)) exists_forall₂_map_iff.symm
  funext e w
  simp [and_assoc]

/-- Values that stay as they are. -/
theorem becomes_ok_iff : Becomes (fun _ v => .ok v) es ws ↔ es = ws := by
  induction es generalizing ws with
  | nil => simp [eq_comm]
  | cons e es ih =>
    obtain ⟨k, v⟩ := e
    simp [becomes_cons_iff, ih]

/-- It does not matter whether a key is erased before or after values become others, if those
under it do so without fail. -/
theorem becomes_erase_iff {key : String} (h : ∀ v, f key v = .ok v) :
    Becomes f (erase es key) ws ↔ ∃ bs, Becomes f es bs ∧ erase bs key = ws := by
  induction es generalizing ws with
  | nil => simp [eq_comm]
  | cons e es ih =>
    obtain ⟨k, v⟩ := e
    rw [erase_cons]
    split
    next hk =>
      subst hk
      simp only [ih, becomes_cons_iff, h]
      constructor
      · rintro ⟨bs, hbs, rfl⟩
        exact ⟨(k, v) :: bs, ⟨v, rfl, bs, hbs, rfl⟩, by simp⟩
      · rintro ⟨_, ⟨b, hb, bs, hbs, rfl⟩, rfl⟩
        exact ⟨bs, hbs, by simp⟩
    next hk =>
      simp only [becomes_cons_iff, ih]
      constructor
      · rintro ⟨w, hw, _, ⟨bs, hbs, rfl⟩, rfl⟩
        exact ⟨(k, w) :: bs, ⟨w, hw, bs, hbs, rfl⟩, by simp [hk]⟩
      · rintro ⟨_, ⟨w, hw, bs, hbs, rfl⟩, rfl⟩
        exact ⟨w, hw, erase bs key, ⟨bs, hbs, rfl⟩, by simp [hk]⟩

end Entries

/-! ## Records that are keyed -/

namespace Rewrite

variable {tag id : String} {v : Value}

/-- A value that is no mapping is the field `tag` of its record. -/
theorem keyedEntry_alone (htag : tag ≠ "id") (id : String) (hv : v.mapping? = none) :
    keyedEntry tag id v = .mapping [("id", .string id), (tag, v)] := by
  cases v with
  | mapping es => cases hv
  | _ => simp [keyedEntry, Entries.insert, htag.symm]

/-- The record of a keyed entry has no key twice. -/
theorem wellFormed_keyedEntry (htag : tag ≠ "id") (hv : v.WellFormed) :
    (keyedEntry tag id v).WellFormed := by
  by_cases halone : v.mapping? = none
  · rw [keyedEntry_alone htag id halone]
    simp [Value.WellFormed, Value.WellFormedEntries, Entries.Distinct, Entries.keys, htag.symm, hv]
  · cases v with
    | mapping es =>
      rw [Value.WellFormed, Value.wellFormedEntries_iff] at hv
      rw [keyedEntry, Value.WellFormed, Value.wellFormedEntries_iff, List.forall_mem_cons]
      refine ⟨List.nodup_cons.mpr ⟨?_, Entries.distinct_erase hv.1 "id"⟩, trivial, ?_⟩
      · intro hid
        obtain ⟨⟨_, w⟩, hw, rfl⟩ := List.mem_map.mp hid
        exact (Entries.mem_erase.mp hw).2 rfl
      · rintro ⟨k, w⟩ hw
        exact hv.2 _ (Entries.mem_erase.mp hw).1
    | _ => exact absurd rfl halone

/-- The records of a map keyed by id have no key twice. -/
theorem wellFormed_listOfMap (htag : tag ≠ "id") (hv : v.WellFormed) :
    (listOfMap tag v).WellFormed := by
  cases v with
  | mapping es =>
    rw [Value.WellFormed, Value.wellFormedEntries_iff] at hv
    rw [listOfMap, Value.WellFormed, Value.wellFormedItems_iff, List.forall_mem_map]
    exact fun e he => wellFormed_keyedEntry htag (hv.2 e he)
  | _ => exact hv

end Rewrite

/-- The records under a key of a raw document, as a list also if they are keyed by id. -/
def Value.recordsAt (doc : Value) (key : String) : List Value :=
  (((doc.get? key).map (Rewrite.listOfMap "type")).bind sequence?).getD []

/-- The records under a key are the items of the list that is there. -/
theorem Value.exists_of_getElem?_recordsAt {doc u : Value} {key : String} {i : ℕ}
    (h : (doc.recordsAt key)[i]? = some u) :
    ∃ v vs, doc.get? key = some v ∧ Rewrite.listOfMap "type" v = .sequence vs ∧
      vs[i]? = some u := by
  rw [recordsAt] at h
  cases hv : doc.get? key with
  | none => simp [hv] at h
  | some v =>
    rw [hv, Option.map_some, Option.bind_some] at h
    cases hlist : Rewrite.listOfMap "type" v with
    | sequence vs =>
      rw [hlist] at h
      exact ⟨v, vs, rfl, hlist, h⟩
    | _ => simp [hlist, sequence?] at h

/-- The records in a well-formed document are well-formed. -/
theorem Value.WellFormed.of_getElem?_recordsAt {doc u : Value} (hdoc : doc.WellFormed)
    {key : String} {i : ℕ} (h : (doc.recordsAt key)[i]? = some u) : u.WellFormed := by
  obtain ⟨v, vs, hv, hlist, hu⟩ := exists_of_getElem?_recordsAt h
  have hvs : (Rewrite.listOfMap "type" v).WellFormed :=
    Rewrite.wellFormed_listOfMap (by decide) (hdoc.get? hv)
  rw [hlist, WellFormed, wellFormedItems_iff] at hvs
  exact hvs u (List.mem_of_getElem? hu)

namespace Normal

open Rewrite

variable {es ws : Mapping} {v w : Value}

/-! ## Fields by their keys

The rewrites of a field look at its key. No key is named by two of them, apart from the maps keyed
by id that are listed before their records are rewritten. -/

section

variable {k : String} (isInput : Bool) (tag : ClassTag) (v : Value)

/-- A parameter is rewritten field by field. -/
theorem parameter_eq_onEntries :
    parameter isInput = onEntries (Entries.mapWithKey (parameterField isInput)) := by
  funext p
  cases p with
  | mapping es => exact parameter_mapping isInput es
  | _ => rfl

theorem parameterField_of_mem_listFields (hk : k ∈ listFields) :
    parameterField isInput k v = listOfValue v := by
  have hdisjoint : ∀ k ∈ listFields, k ≠ "type" ∧ k ≠ "default" ∧ k ≠ "outputBinding" := by decide
  simp [parameterField, hk, hdisjoint k hk]

theorem parameterField_type : parameterField isInput "type" v = tagType v := by
  simp [parameterField, listFields]

theorem parameterField_default :
    parameterField isInput "default" v = if isInput then coerceDefault v else v := by
  simp [parameterField, listFields]

theorem parameterField_outputBinding :
    parameterField isInput "outputBinding" v = onEntries (forceList listFields) v := by
  simp [parameterField, listFields]

theorem stepField_of_mem_listFields (hk : k ∈ listFields) : stepField k v = listOfValue v := by
  have hdisjoint : ∀ k ∈ listFields, k ∉ stepMapFields ∧ k ≠ "in" ∧ k ≠ "out" := by decide
  simp [stepField, hk, hdisjoint k hk]

theorem stepField_of_mem_stepMapFields (hk : k ∈ stepMapFields) :
    stepField k v = listOfMap "type" v := by
  have hdisjoint : ∀ k ∈ stepMapFields, k ∉ listFields ∧ k ≠ "in" ∧ k ≠ "out" := by decide
  simp [stepField, hk, hdisjoint k hk]

theorem stepField_in :
    stepField "in" v = onItems (onEntries (forceList listFields)) (listOfMap "source" v) := by
  simp [stepField, stepMapFields, listFields]

theorem stepField_out : stepField "out" v = onItems stepOutput v := by
  simp [stepField, stepMapFields, listFields]

theorem stepField_eq_self (hk : k ∉ "in" :: "out" :: stepMapFields ++ listFields) :
    stepField k v = v := by
  simp only [List.cons_append, List.mem_cons, List.mem_append, not_or] at hk
  simp [stepField, hk]

theorem field_of_mem_listFields (hk : k ∈ listFields) : field tag k v = listOfValue v := by
  have hdisjoint : ∀ k ∈ listFields, k ∉ mapFields tag ∧ k ≠ "inputs" ∧ k ≠ "outputs" ∧
      k ≠ "arguments" ∧ k ≠ "steps" := by
    cases tag <;> decide
  cases tag <;> simp [field, hk, hdisjoint k hk]

theorem field_inputs :
    field tag "inputs" v = onItems (parameter true) (listOfMap "type" v) := by
  cases tag <;> simp [field, mapFields, listFields]

theorem field_outputs :
    field tag "outputs" v = onItems (parameter false) (listOfMap "type" v) := by
  cases tag <;> simp [field, mapFields, listFields]

theorem field_of_mem_stepMapFields (hk : k ∈ stepMapFields) :
    field tag k v = listOfMap "type" v := by
  have hdisjoint : ∀ k ∈ stepMapFields, k ∈ mapFields tag ∧ k ∉ listFields ∧ k ≠ "inputs" ∧
      k ≠ "outputs" ∧ k ≠ "arguments" ∧ k ≠ "steps" := by
    cases tag <;> decide
  cases tag <;> simp [field, hdisjoint k hk]

theorem field_arguments : field .commandLineTool "arguments" v = onItems argument v := by
  simp [field, mapFields, listFields]

theorem field_steps : field .workflow "steps" v = onItems step (listOfMap "type" v) := by
  simp [field, mapFields, listFields]

theorem field_eq_self (hk : k ∉ mapFields tag ++ listFields)
    (harguments : tag = .commandLineTool → k ≠ "arguments") : field tag k v = v := by
  rw [List.mem_append, not_or] at hk
  have hne : ∀ k' ∈ mapFields tag, k ≠ k' := fun k' hk' heq => hk.1 (heq ▸ hk')
  cases tag <;> simp_all [field, mapFields]

end

/-! ## Boxing -/

/-- The box of a field of a step. -/
def boxedField (k : String) (v : Value) : Except LoadError Value :=
  if k = "run" then boxRun v (tree v) else .ok v

/-- The box of a field of a workflow. -/
def boxedSteps (k : String) (v : Value) : Except LoadError Value :=
  if k = "steps" then boxStepsOf v else .ok v

theorem boxField_cons (k : String) (v : Value) (rest : Mapping) :
    boxField ((k, v) :: rest) = do let w ← boxedField k v; return (k, w) :: (← boxField rest) := by
  rw [boxField, boxedField]
  split <;> rfl

theorem boxSteps_cons (k : String) (v : Value) (rest : Mapping) :
    boxSteps ((k, v) :: rest) = do let w ← boxedSteps k v; return (k, w) :: (← boxSteps rest) := by
  rw [boxSteps, boxedSteps]
  split <;> rfl

/-- The fields of a step are boxed one by one. -/
theorem boxField_eq_ok_iff : boxField es = .ok ws ↔ Entries.Becomes boxedField es ws :=
  Entries.eq_ok_iff_becomes (by rw [boxField]) boxField_cons

/-- The fields of a workflow are boxed one by one. -/
theorem boxSteps_eq_ok_iff : boxSteps es = .ok ws ↔ Entries.Becomes boxedSteps es ws :=
  Entries.eq_ok_iff_becomes (by rw [boxSteps]) boxSteps_cons

/-- Keyed steps are boxed one by one. -/
theorem boxEntries_eq_ok_iff :
    boxEntries es = .ok ws ↔ Entries.Becomes (fun _ => boxStep) es ws :=
  Entries.eq_ok_iff_becomes (by rw [boxEntries]) fun k v rest => by rw [boxEntries]

/-- Listed steps are boxed one by one. -/
theorem boxItems_eq_mapM (vs : List Value) : boxItems vs = vs.mapM boxStep := by
  induction vs with
  | nil => rfl
  | cons v vs ih => rw [boxItems, List.mapM_cons, ih]

/-- It does not matter whether a keyed step is boxed before or after its key becomes its id. -/
theorem boxStep_keyedEntry {id : String} :
    boxStep (keyedEntry "type" id v) = .ok w ↔
      (boxStep v).map (keyedEntry "type" id) = .ok w := by
  cases v with
  | mapping es =>
    simp only [boxStep, keyedEntry, bind_eq_ok_iff, map_eq_ok_iff, pure_eq_ok_iff,
      boxField_eq_ok_iff, Entries.becomes_cons_iff]
    have hbox (k : String) (v : Value) (hk : k ≠ "run") : boxedField k v = .ok v := if_neg hk
    constructor
    · rintro ⟨_, ⟨_, hid, rest, hrest, rfl⟩, rfl⟩
      rw [hbox _ _ (by decide)] at hid
      cases hid
      obtain ⟨bs, hbs, rfl⟩ := (Entries.becomes_erase_iff fun v => hbox _ v (by decide)).mp hrest
      exact ⟨_, ⟨bs, hbs, rfl⟩, rfl⟩
    · rintro ⟨_, ⟨bs, hbs, rfl⟩, rfl⟩
      exact ⟨_, ⟨_, hbox _ _ (by decide), _,
        (Entries.becomes_erase_iff fun v => hbox _ v (by decide)).mpr ⟨bs, hbs, rfl⟩, rfl⟩, rfl⟩
  | _ => simp [boxStep, keyedEntry, Entries.insert, boxField, bind_eq_ok_iff, Except.map]

/-! ## Normal forms -/

/-- The normal form of a field of a step. -/
def normalStepField (k : String) (v : Value) : Except LoadError Value :=
  (boxedField k v).map (stepField k)

/-- The normal form of a step. -/
def normalStep (v : Value) : Except LoadError Value := (boxStep v).map step

/-- The normal form of a field of a process of a class. -/
def normalField (tag : ClassTag) (k : String) (v : Value) : Except LoadError Value :=
  (if tag = .workflow then boxedSteps k v else .ok v).map (field tag k)

/-- A step is brought into normal form field by field. -/
theorem normalStep_eq_ok_iff :
    normalStep (.mapping es) = .ok w ↔
      ∃ ws, Entries.Becomes normalStepField es ws ∧ .mapping ws = w := by
  rw [normalStep, boxStep]
  simp only [map_eq_ok_iff, bind_eq_ok_iff, pure_eq_ok_iff, boxField_eq_ok_iff]
  unfold normalStepField
  simp only [Entries.becomes_map_iff]
  constructor
  · rintro ⟨_, ⟨bs, hbs, rfl⟩, rfl⟩
    exact ⟨_, ⟨bs, hbs, rfl⟩, (step_mapping bs).symm⟩
  · rintro ⟨_, ⟨bs, hbs, rfl⟩, rfl⟩
    exact ⟨_, ⟨bs, hbs, rfl⟩, step_mapping bs⟩

/-- A process is brought into normal form field by field. -/
theorem tree_eq_ok_iff :
    tree (.mapping es) = .ok w ↔
      ∃ tag, ClassTag.ofDocument (.mapping es) = .ok tag ∧
        ∃ ws, Entries.Becomes (normalField tag) es ws ∧ .mapping ws = w := by
  rw [tree]
  simp only [bind_eq_ok_iff]
  refine exists_congr fun tag => and_congr_right fun _ => ?_
  unfold normalField
  simp only [Entries.becomes_map_iff, fields_eq]
  by_cases htag : tag = .workflow
  · simp only [if_pos htag, bind_eq_ok_iff, pure_eq_ok_iff, boxSteps_eq_ok_iff]
    constructor
    · rintro ⟨bs, hbs, rfl⟩
      exact ⟨_, ⟨bs, hbs, rfl⟩, rfl⟩
    · rintro ⟨_, ⟨bs, hbs, rfl⟩, rfl⟩
      exact ⟨bs, hbs, rfl⟩
  · simp only [if_neg htag, bind_eq_ok_iff, pure_eq_ok_iff]
    constructor
    · rintro ⟨bs, hbs, rfl⟩
      cases hbs
      exact ⟨_, ⟨es, Entries.becomes_ok_iff.mpr rfl, rfl⟩, rfl⟩
    · rintro ⟨_, ⟨bs, hbs, rfl⟩, rfl⟩
      obtain rfl := Entries.becomes_ok_iff.mp hbs
      exact ⟨es, rfl, rfl⟩

/-! ## Keyed steps -/

/-- The fields of a process other than the steps of a workflow need no boxing. -/
theorem normalField_eq_field {tag : ClassTag} {k : String}
    (h : ¬(tag = .workflow ∧ k = "steps")) (v : Value) :
    normalField tag k v = .ok (field tag k v) := by
  rw [normalField]
  split
  next htag =>
    rw [boxedSteps, if_neg fun hk => h ⟨htag, hk⟩]
    rfl
  next => rfl

/-- The fields of a step other than its run need no boxing. -/
theorem normalStepField_eq_stepField {k : String} (h : k ≠ "run") (v : Value) :
    normalStepField k v = .ok (stepField k v) := by
  rw [normalStepField, boxedField, if_neg h]
  rfl

/-- Listed steps are brought into normal form one by one. -/
theorem normalField_steps_sequence {vs : List Value} :
    normalField .workflow "steps" (.sequence vs) = .ok w ↔
      ∃ ws, List.Forall₂ (fun v w => normalStep v = .ok w) vs ws ∧ .sequence ws = w := by
  simp only [normalField, boxedSteps, boxStepsOf, if_true, map_eq_ok_iff, bind_eq_ok_iff,
    pure_eq_ok_iff, boxItems_eq_mapM, mapM_eq_ok_iff, normalStep]
  simp only [← exists_forall₂_map_iff]
  constructor
  · rintro ⟨_, ⟨bs, hbs, rfl⟩, rfl⟩
    exact ⟨_, ⟨bs, hbs, rfl⟩, rfl⟩
  · rintro ⟨_, ⟨bs, hbs, rfl⟩, rfl⟩
    exact ⟨_, ⟨bs, hbs, rfl⟩, rfl⟩

/-- A listed step that was keyed is brought into normal form once the keyed one is boxed. -/
theorem normalStep_keyedEntry {id : String} :
    normalStep (keyedEntry "type" id v) = .ok w ↔
      ∃ b, boxStep v = .ok b ∧ step (keyedEntry "type" id b) = w := by
  simp only [normalStep, map_eq_ok_iff, boxStep_keyedEntry]
  constructor
  · rintro ⟨_, ⟨b, hb, rfl⟩, rfl⟩
    exact ⟨b, hb, rfl⟩
  · rintro ⟨b, hb, rfl⟩
    exact ⟨_, ⟨b, hb, rfl⟩, rfl⟩

/-- Keyed steps have the normal form of the list of them. -/
theorem normalField_steps_listOfMap :
    normalField .workflow "steps" (listOfMap "type" v) = .ok w ↔
      normalField .workflow "steps" v = .ok w := by
  cases v with
  | mapping es =>
    have hfield (bs : Mapping) : field .workflow "steps" (.mapping bs) =
        .sequence (bs.map fun b => step (keyedEntry "type" b.1 b.2)) := by
      simp [field_steps, listOfMap, onItems]
    simp only [listOfMap, normalField_steps_sequence, List.forall₂_map_left_iff,
      normalStep_keyedEntry,
      Entries.forall₂_map_iff (g := fun id b => step (keyedEntry "type" id b))]
    simp only [normalField, boxedSteps, boxStepsOf, if_true, map_eq_ok_iff, bind_eq_ok_iff,
      pure_eq_ok_iff, boxEntries_eq_ok_iff]
    constructor
    · rintro ⟨_, ⟨bs, hbs, rfl⟩, rfl⟩
      exact ⟨_, ⟨bs, hbs, rfl⟩, hfield bs⟩
    · rintro ⟨_, ⟨bs, hbs, rfl⟩, rfl⟩
      exact ⟨_, ⟨bs, hbs, rfl⟩, (hfield bs).symm⟩
  | _ => rfl

end Normal

end CanonicalCwl
