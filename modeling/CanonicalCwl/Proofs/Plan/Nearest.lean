import CanonicalCwl.Plan.Record
import CanonicalCwl.Proofs.Schema.Inheritance

/-!
# Nearest Declarations

A resolved record lists its own fields and then those of its parents, and keeps a field name that
occurs more than once; its plan keeps the first one. Where no record extends itself, this gives a
field name the type of its nearest declaration: that of the record itself, or what is planned for
it in the first parent that has it.

- `RecordPlan.names_firstOfEach`, `RecordPlan.find?_firstOfEach`: the first field of every name.
- `Resolution.mem_fields_iff`: the fields of a record are those of the records that it reaches.
- `Resolution.PlansNearest`: what is planned for the fields of a record.
- `Resolution.plansNearest_ofNodes`: the resolution of schema nodes plans so.
-/

namespace CanonicalCwl

namespace RecordPlan

/-! ## The first field of every name -/

/-- Fields can be left out by their names before or after. -/
theorem firstOfEach_filter (keep : String → Bool) (fields : List Field) :
    firstOfEach (fields.filter (keep ·.name)) = (firstOfEach fields).filter (keep ·.name) := by
  induction fields with
  | nil => rfl
  | cons f rest ih =>
    by_cases hf : keep f.name
    · simp only [List.filter_cons, hf, if_true, firstOfEach, ih]
      rw [List.filter_comm]
    · simp only [List.filter_cons, hf, Bool.false_eq_true, if_false, firstOfEach, ih,
        List.filter_filter]
      refine List.filter_congr fun g _ => ?_
      by_cases hg : g.name = f.name <;> simp [hg, hf]

/-- The names are those of the fields, in the order in which they first occur. -/
theorem names_firstOfEach (fields : List Field) :
    (firstOfEach fields).map (·.name) = (fields.map (·.name)).eraseDups := by
  match fields with
  | [] => rfl
  | f :: rest =>
    have hrest : (firstOfEach rest).filter (·.name ≠ f.name) =
        firstOfEach (rest.filter (·.name ≠ f.name)) :=
      (firstOfEach_filter (· ≠ f.name) rest).symm
    rw [firstOfEach, hrest, List.map_cons, names_firstOfEach, List.map_cons, List.eraseDups_cons,
      List.filter_map]
    simp [Function.comp_def, beq_eq_decide]
termination_by fields.length
decreasing_by exact Nat.lt_succ_of_le (List.length_filter_le ..)

/-- No name is kept twice. -/
theorem nodup_names_firstOfEach (fields : List Field) :
    ((firstOfEach fields).map (·.name)).Nodup := by
  induction fields with
  | nil => exact List.nodup_nil
  | cons f rest ih =>
    rw [firstOfEach, List.map_cons, List.nodup_cons]
    refine ⟨?_, ih.sublist (List.filter_sublist.map _)⟩
    simp

/-- The field that is kept of a name is the first one. -/
theorem find?_firstOfEach (fields : List Field) (name : String) :
    (firstOfEach fields).find? (·.name = name) = fields.find? (·.name = name) := by
  induction fields with
  | nil => rfl
  | cons f rest ih =>
    rw [firstOfEach, List.find?_cons, List.find?_cons]
    by_cases hf : f.name = name
    · simp [hf]
    · simp only [hf, decide_false, ← ih, List.find?_filter]
      congr 1
      funext g
      by_cases hg : g.name = name
      · simp [hg, Ne.symm hf]
      · simp [hg]

/-- The type that is planned for a field name; none if the record has no such field. -/
def type? (plan : RecordPlan) (name : String) : Option TypeExpr :=
  (plan.fields.find? (·.name = name)).map (·.type)

/-- The type of the first field counts. -/
theorem type?_ofRecord (r : Schema.RecordDef) (name : String) :
    (ofRecord r).type? name = (r.fields.find? (·.name = name)).map (·.type) := by
  rw [type?, ofRecord, List.find?_map, Option.map_map, ← find?_firstOfEach]
  rfl

/-- The names of the planned fields are those that the fields are planned from. -/
theorem names_ofRecord (r : Schema.RecordDef) :
    (ofRecord r).fields.map (·.name) = (firstOfEach r.fields).map (·.name) := by
  rw [ofRecord, List.map_map]
  rfl

end RecordPlan

namespace Schema

open Relation Inheritance

namespace Registry

/-- The type of the first field of a name that a record has. -/
def type? (reg : Registry) (record name : String) : Option TypeExpr :=
  ((reg.fields record).find? (·.name = name)).map (·.type)

/-- The type that is planned for a field name of a record; none if there is no such record or if it
has no such field. -/
def plannedType? (reg : Registry) (record name : String) : Option TypeExpr :=
  (reg.record? record).bind fun r => (RecordPlan.ofRecord r).type? name

/-- What is planned is the type of the first field. -/
theorem plannedType?_eq_type? (reg : Registry) (record name : String) :
    reg.plannedType? record name = reg.type? record name := by
  rw [plannedType?, type?, fields]
  cases reg.record? record with
  | none => rfl
  | some r => exact RecordPlan.type?_ofRecord r name

/-- No parent is left out as cyclic exactly if no record extends itself. -/
theorem Proper.cyclic_notMem_skipped_iff {reg : Registry} (h : reg.Proper) :
    (∀ child parent, .cyclic child parent ∉ (search (declaredRecords reg)).skipped) ↔
      ∀ name, ¬ TransGen reg.Extends name name := by
  simp only [← not_exists]
  rw [exists_cyclic_iff, h.extends_declaredRecords]

end Registry

namespace Resolution

section OfSurvey

variable {s : Survey} (h : s.registry.Proper)
  (hacyclic : ∀ name, ¬ TransGen s.registry.Extends name name)

include h hacyclic

/-- Where no record extends itself, a record has its own fields and those of all its parents. -/
theorem fields_ofSurvey_of_acyclic (name : String) :
    (ofSurvey s).registry.fields name = s.registry.fields name ++
      (s.registry.parents name).flatMap (ofSurvey s).registry.fields := by
  rw [fields_ofSurvey h, funext (fields_ofSurvey h), Registry.fields, Registry.parents]
  cases hr : s.registry.record? name with
  | none =>
    rw [← h.get?_declaredRecords] at hr
    rw [get?_finished_search_eq_none_iff.mpr hr]
    rfl
  | some r =>
    have hall : remaining (search (declaredRecords s.registry)).skipped name r.parents =
        r.parents :=
      List.filter_eq_self.mpr fun parent _ =>
        decide_eq_true (h.cyclic_notMem_skipped_iff.mpr hacyclic name parent)
    rw [← h.get?_declaredRecords] at hr
    rw [get?_finished_search hr, hall]
    rfl

/-- A record has the fields of its parents. -/
theorem fields_subset_of_extends {child parent : String}
    (hextends : s.registry.Extends child parent) :
    (ofSurvey s).registry.fields parent ⊆ (ofSurvey s).registry.fields child := by
  intro f hf
  rw [fields_ofSurvey_of_acyclic h hacyclic child]
  exact List.mem_append_right _ (List.mem_flatMap.mpr ⟨parent, hextends.1, hf⟩)

/-- The fields of a record are those that the records that it reaches declare. -/
theorem mem_fields_iff {name : String} {f : Field} :
    f ∈ (ofSurvey s).registry.fields name ↔
      ∃ ancestor, ReflTransGen s.registry.Extends name ancestor ∧
        f ∈ s.registry.fields ancestor := by
  constructor
  · intro hf
    -- The parents of a record are finished before it.
    induction hindex : (Entries.keys (search (declaredRecords s.registry)).finished).idxOf name
      using Nat.strongRecOn generalizing name with
    | ind n ih =>
      rw [fields_ofSurvey_of_acyclic h hacyclic, List.mem_append, List.mem_flatMap] at hf
      rcases hf with hown | ⟨parent, hparent, hf⟩
      · exact ⟨name, .refl, hown⟩
      · have hdeclared : (s.registry.record? parent).isSome := by
          cases hr : s.registry.record? parent with
          | some r => rfl
          | none => simp [Registry.fields, record?_ofSurvey h, hr] at hf
        have hextends : s.registry.Extends name parent := ⟨hparent, hdeclared⟩
        have hremains : Remains (declaredRecords s.registry) name parent :=
          ⟨h.extends_declaredRecords ▸ hextends,
            h.cyclic_notMem_skipped_iff.mpr hacyclic name parent⟩
        have hlt := idxOf_lt_of_remains hremains
        obtain ⟨ancestor, hreaches, hf⟩ := ih _ (hindex ▸ hlt) hf rfl
        exact ⟨ancestor, .head hextends hreaches, hf⟩
  · rintro ⟨ancestor, hreaches, hf⟩
    induction hreaches using ReflTransGen.head_induction_on with
    | refl =>
      rw [fields_ofSurvey_of_acyclic h hacyclic]
      exact List.mem_append_left _ hf
    | head hextends _ ih => exact fields_subset_of_extends h hacyclic hextends ih

end OfSurvey

/-- What is planned for the fields of a record. -/
structure PlansNearest (reg : Registry) (res : Resolution) (name : String) (r : RecordDef) :
    Prop where
  /-- The plan lists the field names that are reached from the record, each of them once. -/
  nodup : ((RecordPlan.ofRecord r).fields.map (·.name)).Nodup
  reached : ∀ n, n ∈ (RecordPlan.ofRecord r).fields.map (·.name) ↔
    ∃ ancestor, ReflTransGen reg.Extends name ancestor ∧ n ∈ (reg.fields ancestor).map (·.name)
  /-- The record lists its own fields and those of its parents, and the plan follows its order. -/
  listed : r.fields = reg.fields name ++ (reg.parents name).flatMap res.registry.fields
  order : (RecordPlan.ofRecord r).fields.map (·.name) = (r.fields.map (·.name)).eraseDups
  /-- The first own declaration counts, or else the plan of the first parent that has the name. -/
  nearest : ∀ n, (RecordPlan.ofRecord r).type? n = (reg.type? name n).or
    ((reg.parents name).findSome? fun parent => res.registry.plannedType? parent n)

/-- Where no record extends itself, fields are planned from their nearest declarations. -/
theorem plansNearest_ofNodes {nodes : List Value} {name : String} {r : RecordDef}
    (hacyclic : ∀ name, ¬ TransGen (Survey.ofNodes nodes).registry.Extends name name)
    (hr : (ofNodes nodes).registry.record? name = some r) :
    PlansNearest (Survey.ofNodes nodes).registry (ofNodes nodes) name r := by
  have hproper := Survey.proper_ofNodes nodes
  have hfields : (ofNodes nodes).registry.fields name = r.fields := by
    rw [Registry.fields, hr]
    rfl
  have hlisted : r.fields = (Survey.ofNodes nodes).registry.fields name ++
      ((Survey.ofNodes nodes).registry.parents name).flatMap (ofNodes nodes).registry.fields :=
    hfields.symm.trans (fields_ofSurvey_of_acyclic hproper hacyclic name)
  have horder : (RecordPlan.ofRecord r).fields.map (·.name) =
      (r.fields.map (·.name)).eraseDups := by
    rw [RecordPlan.names_ofRecord, RecordPlan.names_firstOfEach]
  constructor
  case nodup =>
    rw [RecordPlan.names_ofRecord]
    exact RecordPlan.nodup_names_firstOfEach r.fields
  case reached =>
    intro n
    rw [horder, List.mem_eraseDups, List.mem_map, ← hfields]
    constructor
    · rintro ⟨f, hf, hn⟩
      obtain ⟨ancestor, hreaches, hf⟩ := (mem_fields_iff hproper hacyclic).mp hf
      exact ⟨ancestor, hreaches, List.mem_map.mpr ⟨f, hf, hn⟩⟩
    · rintro ⟨ancestor, hreaches, hn⟩
      obtain ⟨f, hf, hn⟩ := List.mem_map.mp hn
      exact ⟨f, (mem_fields_iff hproper hacyclic).mpr ⟨ancestor, hreaches, hf⟩, hn⟩
  case listed => exact hlisted
  case order => exact horder
  case nearest =>
    intro n
    rw [RecordPlan.type?_ofRecord, hlisted, List.find?_append, List.find?_flatMap, Option.map_or,
      List.map_findSome?]
    simp only [Registry.plannedType?_eq_type?]
    rfl

/-- A record that inherits twice from another one, and gives one field twice. The two records
between them give it, too, and the second one also gives the other field of the top. -/
def redeclaringNodes : List Value :=
  [.mapping [("type", .string "record"), ("name", .string "Bottom"),
      ("extends", .sequence [.string "Left", .string "Missing", .string "Right"]),
      ("fields", .sequence [
        .mapping [("name", .string "id"), ("type", .string "long")],
        .mapping [("name", .string "id"), ("type", .string "Any")]])],
    .mapping [("type", .string "record"), ("name", .string "Left"), ("extends", .string "Top"),
      ("fields", .mapping [("left", .string "float"), ("id", .string "float")])],
    .mapping [("type", .string "record"), ("name", .string "Right"), ("extends", .string "Top"),
      ("fields", .mapping [("top", .string "string"), ("id", .string "string")])],
    .mapping [("type", .string "record"), ("name", .string "Top"),
      ("fields", .mapping [("top", .string "int"), ("id", .string "int")])]]

/-- The field of the top comes by way of the first parent, although the second one redeclares it. -/
theorem plansNearest_redeclaringNodes :
    (∀ name, ¬ TransGen (Survey.ofNodes redeclaringNodes).registry.Extends name name) ∧
    ∃ r, (ofNodes redeclaringNodes).registry.record? "Bottom" = some r ∧
      (RecordPlan.ofRecord r).fields.map (·.name) = ["id", "left", "top"] ∧
      (RecordPlan.ofRecord r).type? "id" = some (.named "long") ∧
      (RecordPlan.ofRecord r).type? "top" = some (.named "int") := by
  have hproper := Survey.proper_ofNodes redeclaringNodes
  have hdeclared : declaredRecords (Survey.ofNodes redeclaringNodes).registry =
      [("Bottom", ⟨"Bottom", [⟨"id", .named "long", [], none⟩, ⟨"id", .named "Any", [], none⟩],
          ["Left", "Missing", "Right"], []⟩),
        ("Left", ⟨"Left", [⟨"left", .named "float", [], none⟩, ⟨"id", .named "float", [], none⟩],
          ["Top"], []⟩),
        ("Right", ⟨"Right", [⟨"top", .named "string", [], none⟩,
          ⟨"id", .named "string", [], none⟩], ["Top"], []⟩),
        ("Top", ⟨"Top", [⟨"top", .named "int", [], none⟩, ⟨"id", .named "int", [], none⟩],
          [], []⟩)] := by decide +kernel
  have hacyclic : ∀ name,
      ¬ TransGen (Survey.ofNodes redeclaringNodes).registry.Extends name name := by
    rw [← hproper.cyclic_notMem_skipped_iff, hdeclared]
    simp [search, flatten, Entries.get?_cons, Entries.keys, Entries.insert, Progress.empty,
      Progress.skip, Progress.finish]
  have hparents : (Survey.ofNodes redeclaringNodes).registry.parents "Bottom" =
      ["Left", "Missing", "Right"] := by decide +kernel
  have hleft : (ofNodes redeclaringNodes).registry.fields "Left" =
      [⟨"left", .named "float", [], none⟩, ⟨"id", .named "float", [], none⟩,
        ⟨"top", .named "int", [], none⟩, ⟨"id", .named "int", [], none⟩] := by
    rw [ofNodes, fields_ofSurvey hproper, hdeclared]
    simp [search, flatten, Entries.get?_cons, Entries.keys, Entries.insert, Progress.empty,
      Progress.skip, Progress.finish]
  have hnames : ((ofNodes redeclaringNodes).registry.fields "Bottom").map (·.name) =
      ["id", "id", "left", "id", "top", "id", "top", "id", "top", "id"] := by
    rw [ofNodes, fields_ofSurvey hproper, hdeclared]
    simp [search, flatten, Entries.get?_cons, Entries.keys, Entries.insert, Progress.empty,
      Progress.skip, Progress.finish]
  obtain ⟨r, hr⟩ : ∃ r, (ofNodes redeclaringNodes).registry.record? "Bottom" = some r := by
    rw [ofNodes, record?_ofSurvey hproper, ← hproper.get?_declaredRecords, hdeclared]
    exact ⟨_, rfl⟩
  rw [Registry.fields, hr] at hnames
  have hplan := plansNearest_ofNodes hacyclic hr
  refine ⟨hacyclic, r, hr, ?_, ?_, ?_⟩
  · rw [hplan.order]
    exact (congrArg List.eraseDups hnames).trans (by decide)
  · have hown : (Survey.ofNodes redeclaringNodes).registry.type? "Bottom" "id" =
        some (.named "long") := by decide +kernel
    rw [hplan.nearest, hown]
    rfl
  · have hown : (Survey.ofNodes redeclaringNodes).registry.type? "Bottom" "top" = none := by
      decide +kernel
    rw [hplan.nearest, hown, hparents, Option.none_or, List.findSome?_cons,
      Registry.plannedType?_eq_type?, Registry.type?, hleft]
    rfl

end Resolution

end Schema

end CanonicalCwl
