import CanonicalCwl.Proofs.Schema.Registry

/-!
# Lifted Types

A named record or enumeration that is written in place of a type is registered as a definition of
its own, and the place refers to it by name. This goes through arrays, unions and the fields of
named records. A record without a name is left as it is written, with all that it holds, and so it
is the only place where a named record or enumeration may remain.

- `TypeExpr.Contains`: what a type contains at any depth.
- `TypeExpr.hidden_of_contains_lifted`: what remains in a lifted type is inside of a record without
  a name.
- `Schema.Survey.lifted_ofNodes`: what nodes register is lifted.
- `Schema.Resolution.exists_lifted`: so are the types of resolved fields.
-/

namespace CanonicalCwl

open Relation Schema

namespace TypeExpr

variable {t u : TypeExpr} {d : Definition}

/-! ## What a type contains -/

/-- The types that a type is put together from. -/
def components : TypeExpr → List TypeExpr
  | named _ | enum _ _ => []
  | array items => [items]
  | union members => members
  | record _ fields => fields.map (·.type)

/-- One type contains the other, at any depth. -/
def Contains : TypeExpr → TypeExpr → Prop := ReflTransGen fun t part => part ∈ t.components

theorem liftedAll_eq_map (ts : List TypeExpr) : liftedAll ts = ts.map lifted := by
  induction ts with
  | nil => rfl
  | cons t rest ih => rw [liftedAll, ih, List.map_cons]

/-- A lifted type is no definition. -/
theorem definition?_lifted (t : TypeExpr) : (lifted t).definition? = none := by
  cases t with
  | named name => rfl
  | array items => rfl
  | union members => rfl
  | record name fields | enum name symbols =>
    rw [lifted]
    split
    next hname => rw [definition?, if_pos hname]
    next => rfl

/-- A lifted type is put together from lifted types, or it is a record without a name. -/
theorem components_lifted (t : TypeExpr) :
    (∀ part ∈ (lifted t).components, ∃ t', part = lifted t') ∨
      ∃ fields, lifted t = record "" fields := by
  cases t with
  | named name =>
    left
    simp [lifted, components]
  | array items => exact .inl fun part hpart => ⟨items, List.mem_singleton.mp hpart⟩
  | union members =>
    left
    rw [lifted, components, liftedAll_eq_map, List.forall_mem_map]
    exact fun member _ => ⟨member, rfl⟩
  | record name fields =>
    rw [lifted]
    split
    next hname => exact .inr ⟨fields, by rw [String.isEmpty_iff.mp hname]⟩
    next =>
      left
      simp [components]
  | enum name symbols =>
    left
    rw [lifted]
    split <;> simp [components]

/-- A definition that a lifted type contains is inside of a record without a name. -/
theorem hidden_of_contains_lifted (h : (lifted t).Contains u) (hu : u.definition? = some d) :
    ∃ fields, (lifted t).Contains (record "" fields) ∧ (record "" fields).Contains u := by
  generalize hlifted : lifted t = v at h
  -- Going down from the lifted type, all is lifted until a record without a name is entered.
  induction h using ReflTransGen.head_induction_on generalizing t with
  | refl => simp [← hlifted, definition?_lifted] at hu
  | @head v part hpart hcontains ih =>
    subst hlifted
    rcases components_lifted t with hparts | ⟨fields, hrecord⟩
    · obtain ⟨t', rfl⟩ := hparts part hpart
      obtain ⟨fields, hfields, hu⟩ := ih rfl
      exact ⟨fields, .head hpart hfields, hu⟩
    · exact ⟨fields, hrecord ▸ .refl, hrecord ▸ .head hpart hcontains⟩

/-! ## Places outside of records -/

/-- The items of an array and the members of a union. -/
def alternatives : TypeExpr → List TypeExpr
  | array items => [items]
  | union members => members
  | named _ | record _ _ | enum _ _ => []

/-- The type that stands at a place, which may be inside of arrays and unions. -/
def typeAt : TypeExpr → Place → Option TypeExpr
  | t, [] => some t
  | t, i :: place => t.alternatives[i]?.bind (typeAt · place)

theorem alternatives_lifted (t : TypeExpr) :
    (lifted t).alternatives = t.alternatives.map lifted := by
  cases t with
  | named name => rfl
  | array items => rfl
  | union members => rw [lifted, alternatives, alternatives, liftedAll_eq_map]
  | record name fields | enum name symbols =>
    rw [lifted]
    split <;> rfl

/-- At each place of a lifted type stands what has stood there, lifted. -/
theorem typeAt_lifted (t : TypeExpr) (place : Place) :
    (lifted t).typeAt place = (t.typeAt place).map lifted := by
  induction place generalizing t with
  | nil => rfl
  | cons i place ih =>
    rw [typeAt, typeAt, alternatives_lifted, List.getElem?_map]
    cases t.alternatives[i]? with
    | none => rfl
    | some part => exact ih part

/-- A definition is lifted to a reference by its name. -/
theorem lifted_of_definition? (h : t.definition? = some d) : lifted t = named d.name := by
  cases t with
  | named name | array items | union members => cases h
  | record name fields | enum name symbols =>
    rw [definition?] at h
    split at h
    · cases h
    next hname =>
      obtain rfl := Option.some.inj h
      rw [lifted, if_neg hname]
      rfl

/-- A type that is a record definition is a record with a name. -/
theorem eq_record_of_definition? {r : RecordDef} (h : t.definition? = some (.record r)) :
    ∃ name fields, t = record name fields ∧ name ≠ "" ∧ r.fields = fields.map liftedField := by
  cases t with
  | named name | array items | union members => cases h
  | record name fields =>
    rw [definition?] at h
    split at h
    · cases h
    next hname =>
      cases h
      exact ⟨name, fields, rfl, by simpa using hname, rfl⟩
  | enum name symbols =>
    rw [definition?] at h
    split at h <;> cases h

/-- What is no definition and not put together from others is lifted to itself. -/
theorem lifted_of_definition?_eq_none (h : t.definition? = none)
    (halternatives : t.alternatives = []) : lifted t = t := by
  cases t with
  | named name => rfl
  | array items => cases halternatives
  | union members =>
    rw [alternatives] at halternatives
    rw [halternatives]
    rfl
  | record name fields | enum name symbols =>
    rw [definition?] at h
    split at h
    next hname => rw [lifted, if_pos hname]
    · cases h

/-- The stored field is the written one, in whose type each definition outside of records is
replaced by a reference. -/
structure Refers (written stored : Field) : Prop where
  name : stored.name = written.name
  doc : stored.doc = written.doc
  default : stored.default = written.default
  definition : ∀ place t d, written.type.typeAt place = some t → t.definition? = some d →
    stored.type.typeAt place = some (named d.name)
  rest : ∀ place t, written.type.typeAt place = some t → t.definition? = none →
    t.alternatives = [] → stored.type.typeAt place = some t

theorem refers_liftedField (f : Field) : Refers f (liftedField f) := by
  constructor
  case name => rfl
  case doc => rfl
  case default => rfl
  case definition =>
    intro place t d ht hd
    rw [liftedField, typeAt_lifted, ht, Option.map_some, lifted_of_definition? hd]
  case rest =>
    intro place t ht hd halternatives
    rw [liftedField, typeAt_lifted, ht, Option.map_some,
      lifted_of_definition?_eq_none hd halternatives]

/-- The type that is written at a place inside of a type; what is inside of a record without a name
does not count. -/
def partAt : TypeExpr → Place → Option TypeExpr
  | t, [] => some t
  | t, i :: place => t.parts[i]?.bind (partAt · place)

/-- The definition at a place is the type that stands there. -/
theorem definitionAt_eq_bind (t : TypeExpr) (place : Place) :
    t.definitionAt place = (t.partAt place).bind definition? := by
  induction place generalizing t with
  | nil => rfl
  | cons i place ih =>
    rw [definitionAt, partAt]
    cases t.parts[i]? with
    | none => rfl
    | some part => exact ih part

end TypeExpr

namespace Schema

open TypeExpr

/-! ## What is registered -/

/-- A definition that is written in place is registered, or its name is taken. -/
theorem Registry.mem_of_mem_declareNew {reg : Registry} {d : Definition}
    {e : String × Definition} (h : e ∈ reg.declareNew d) : e ∈ reg ∨ e = (d.name, d) := by
  rw [declareNew] at h
  split at h
  · exact .inl h
  · exact Entries.mem_of_mem_insert h

/-- Nothing but the given definitions is added. -/
theorem Registry.mem_of_mem_foldl_declareNew {ds : List Definition} {reg : Registry}
    {e : String × Definition} (h : e ∈ ds.foldl declareNew reg) : e ∈ reg ∨ e.2 ∈ ds := by
  induction ds generalizing reg with
  | nil => exact .inl h
  | cons d ds ih =>
    rcases ih h with h | h
    · rcases mem_of_mem_declareNew h with h | rfl
      · exact .inl h
      · exact .inr (List.mem_cons_self ..)
    · exact .inr (List.mem_cons_of_mem _ h)

namespace Survey

/-- A node adds nothing but its definitions. -/
theorem mem_of_mem_observe {s : Survey} {node : Value} {e : String × Definition}
    (h : e ∈ (s.observe node).registry) : e ∈ s.registry ∨ e.2 ∈ Node.definitions node := by
  rw [Node.definitions, List.mem_append]
  rw [observe, add] at h
  cases hd : (Node.read node).declared with
  | none =>
    rw [hd] at h
    exact (Registry.mem_of_mem_foldl_declareNew h).imp_right .inl
  | some d =>
    rw [hd] at h
    rcases Entries.mem_of_mem_insert h with h | rfl
    · exact (Registry.mem_of_mem_foldl_declareNew h).imp_right .inl
    · exact .inr (.inr (List.mem_singleton_self d))

/-- Several nodes add nothing but their definitions. -/
theorem mem_of_mem_foldl_observe {nodes : List Value} {s : Survey} {e : String × Definition}
    (h : e ∈ (nodes.foldl observe s).registry) :
    e ∈ s.registry ∨ e.2 ∈ nodes.flatMap Node.definitions := by
  induction nodes generalizing s with
  | nil => exact .inl h
  | cons node nodes ih =>
    rw [List.flatMap_cons, List.mem_append]
    rcases ih h with h | h
    · exact (mem_of_mem_observe h).imp_right .inl
    · exact .inr (.inr h)

/-- The fields of a record are written in the nodes: those that a record node keeps, or those of a
named record that is written in place in the type of one of them. -/
inductive Written (nodes : List Value) : List Field → Prop
  | node {node : Value} (h : node ∈ nodes) : Written nodes (Node.fields node)
  | inline {node : Value} {f : Field} {place : Place} {name : String} {fields : List Field}
      (h : node ∈ nodes) (hf : f ∈ Node.fields node)
      (hplace : f.type.partAt place = some (record name fields)) (hname : name ≠ "") :
      Written nodes fields

/-- The types of the registered records are lifted. -/
structure Lifted (nodes : List Value) (reg : Registry) : Prop where
  /-- A named record or enumeration that remains in the type of a field is inside of a record
  without a name. -/
  hidden : ∀ name r, (name, .record r) ∈ reg → ∀ f ∈ r.fields, ∀ t d, f.type.Contains t →
    t.definition? = some d →
    ∃ fields, f.type.Contains (record "" fields) ∧ (record "" fields).Contains t
  /-- Every other one that is written in the type of a field has its name registered. -/
  registered : ∀ node ∈ nodes, ∀ f ∈ Node.fields node, ∀ place d,
    f.type.definitionAt place = some d → d.name ∈ Entries.keys reg
  /-- The fields of a registered record are as they are written, with references to what is
  written in place. -/
  references : ∀ name r, (name, .record r) ∈ reg →
    ∃ fields, Written nodes fields ∧ List.Forall₂ Refers fields r.fields

variable {nodes : List Value} {r : RecordDef}

/-- The fields of a registered record are lifted. -/
theorem exists_written {name : String} (h : (name, .record r) ∈ (ofNodes nodes).registry) :
    ∃ fields, Written nodes fields ∧ r.fields = fields.map liftedField := by
  have hmem := (mem_of_mem_foldl_observe h).resolve_left (by simp [empty])
  obtain ⟨node, hnode, hd⟩ := List.mem_flatMap.mp hmem
  -- The node writes the record in place, or it declares it.
  rcases List.mem_append.mp hd with hd | hd
  · rw [Node.inline_read] at hd
    obtain ⟨t, ht, hd⟩ := List.mem_flatMap.mp hd
    obtain ⟨f, hf, rfl⟩ := List.mem_map.mp ht
    obtain ⟨place, hplace⟩ := f.type.lists_inlineDefinitions.mem_iff.mp hd
    rw [definitionAt_eq_bind, Option.bind_eq_some_iff] at hplace
    obtain ⟨t, ht, hd⟩ := hplace
    obtain ⟨name, fields, rfl, hname, hfields⟩ := eq_record_of_definition? hd
    exact ⟨fields, .inline hnode hf ht hname, hfields⟩
  · have hdeclares := Node.declared_read_eq_some_iff.mp (Option.mem_toList.mp hd)
    cases hdeclares
    exact ⟨_, .node hnode, rfl⟩

/-- What nodes register is lifted. -/
theorem lifted_ofNodes (nodes : List Value) : Lifted nodes (ofNodes nodes).registry := by
  constructor
  case hidden =>
    intro name r hr f hf t d ht hd
    obtain ⟨fields, -, hfields⟩ := exists_written hr
    rw [hfields] at hf
    obtain ⟨written, -, rfl⟩ := List.mem_map.mp hf
    exact hidden_of_contains_lifted ht hd
  case registered =>
    intro node hnode f hf place d hd
    have hempty : Entries.keys empty.registry = [].eraseDups := rfl
    rw [ofNodes, keys_foldl_observe hempty, List.nil_append, List.mem_eraseDups]
    refine List.mem_map_of_mem (List.mem_flatMap.mpr ⟨node, hnode, List.mem_append_left _ ?_⟩)
    rw [Node.inline_read]
    exact List.mem_flatMap.mpr ⟨f.type, List.mem_map_of_mem hf,
      f.type.lists_inlineDefinitions.mem_iff.mpr ⟨place, hd⟩⟩
  case references =>
    intro name r hr
    obtain ⟨fields, hwritten, hfields⟩ := exists_written hr
    refine ⟨fields, hwritten, ?_⟩
    rw [hfields, List.forall₂_map_right_iff, List.forall₂_same]
    exact fun f _ => refers_liftedField f

/-- A record node with a field whose type is a record without a name, in which an enumeration with
a name is written. -/
def modeNode : Value :=
  .mapping [("type", .string "record"), ("name", .string "Outer"),
    ("fields", .sequence [.mapping [("name", .string "a"),
      ("type", .mapping [("type", .string "record"),
        ("fields", .sequence [.mapping [("name", .string "b"),
          ("type", .mapping [("type", .string "enum"), ("name", .string "Mode"),
            ("symbols", .sequence [.string "fast"])])]])])]])]

/-- The enumeration remains in the type of the registered field, and its name is not registered. -/
theorem contains_enum_modeNode :
    ∃ r f, (ofNodes [modeNode]).registry = [("Outer", .record r)] ∧ r.fields = [f] ∧
      f.type.Contains (enum "Mode" ["fast"]) := by
  refine ⟨⟨"Outer", [⟨"a", record "" [⟨"b", enum "Mode" ["fast"], [], none⟩], [], none⟩], [], []⟩,
    _, by decide +kernel, rfl, ?_⟩
  exact .single (List.mem_singleton_self _)

end Survey

/-! ## What is resolved -/

namespace Registry

variable {reg : Registry} {name : String} {r : RecordDef}

theorem mem_of_record? (h : reg.record? name = some r) : (name, .record r) ∈ reg := by
  obtain ⟨d, hd, hr⟩ := Option.bind_eq_some_iff.mp h
  cases d with
  | record d =>
    cases hr
    exact Entries.mem_of_get? hd
  | enum e => cases hr

theorem mem_of_enum? {e : EnumDef} (h : reg.enum? name = some e) : (name, .enum e) ∈ reg := by
  obtain ⟨d, hd, he⟩ := Option.bind_eq_some_iff.mp h
  cases d with
  | record r => cases he
  | enum d =>
    cases he
    exact Entries.mem_of_get? hd

theorem mem_records_iff : r ∈ reg.records ↔ ∃ name, (name, .record r) ∈ reg := by
  rw [records, List.mem_filterMap]
  constructor
  · rintro ⟨⟨name, d⟩, hmem, hd⟩
    cases d with
    | record r' =>
      cases hd
      exact ⟨name, hmem⟩
    | enum e => cases hd
  · rintro ⟨name, hmem⟩
    exact ⟨_, hmem, rfl⟩

end Registry

namespace Resolution

variable {nodes : List Value} {r : RecordDef} {f : Field}

/-- Every field of a resolved record is a field of a surveyed one. -/
theorem exists_surveyed_field (hr : r ∈ (ofNodes nodes).registry.records) (hf : f ∈ r.fields) :
    ∃ name origin, (name, .record origin) ∈ (Survey.ofNodes nodes).registry ∧
      f ∈ origin.fields := by
  have hproper := Survey.proper_ofNodes nodes
  obtain ⟨name, hmem⟩ := Registry.mem_records_iff.mp hr
  rw [ofNodes, ofSurvey, Entries.mem_mapWithKey] at hmem
  obtain ⟨d, hmem, hd⟩ := hmem
  cases d with
  | enum e => cases hd
  | record own =>
    cases hd
    cases hfields : Entries.get?
      (Inheritance.search (Inheritance.declaredRecords (Survey.ofNodes nodes).registry)).finished
      own.name with
    | none => exact ⟨name, own, hmem, by simpa [hfields] using hf⟩
    | some fields =>
      obtain ⟨name, origin, horigin, hf⟩ :=
        (Inheritance.sound_search _).exists_declared_field (Entries.mem_of_get? hfields)
          (by simpa [hfields] using hf)
      rw [hproper.get?_declaredRecords] at horigin
      exact ⟨name, origin, Registry.mem_of_record? horigin, hf⟩

/-- The types of the fields of resolved records are lifted. -/
theorem exists_lifted (hr : r ∈ (ofNodes nodes).registry.records) (hf : f ∈ r.fields) :
    ∃ t, f.type = lifted t := by
  obtain ⟨name, origin, horigin, hf⟩ := exists_surveyed_field hr hf
  obtain ⟨fields, -, hfields⟩ := Survey.exists_written horigin
  rw [hfields] at hf
  obtain ⟨written, -, rfl⟩ := List.mem_map.mp hf
  exact ⟨written.type, rfl⟩

end Resolution

end Schema

end CanonicalCwl
