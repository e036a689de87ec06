import CanonicalCwl.Proofs.Schema.Grounded
import CanonicalCwl.Proofs.Schema.Registry

/-!
# The Order of Schema Nodes

A schema may list its nodes in any order: a record may stand before its parents or after them. The
order shows only where several definitions have the same name, or where records inherit from each
other in a cycle. Otherwise the same definitions stand under the same names, and the same is
reported.

- `Survey.registry_ofNodes_of_nodup`: definitions of different names are registered one after
  the other.
- `Inheritance.skipped_search_perm`: the parents that are left out, if there are no cycles.
- `Resolution.ofNodes_perm`: the same nodes in another order are resolved alike.
-/

namespace CanonicalCwl.Schema

open Relation Inheritance

/-! ## Definitions of different names -/

namespace Registry

variable {reg : Registry}

/-- The registry of definitions whose names are all different. -/
def ofDefinitions (ds : List Definition) : Registry := ds.map fun d => (d.name, d)

@[simp] theorem keys_ofDefinitions (ds : List Definition) :
    Entries.keys (ofDefinitions ds) = ds.map (·.name) := by
  rw [ofDefinitions, Entries.keys, List.map_map, Function.comp_def]

@[simp] theorem ofDefinitions_append (ds ds' : List Definition) :
    ofDefinitions (ds ++ ds') = ofDefinitions ds ++ ofDefinitions ds' :=
  List.map_append

theorem ofDefinitions_perm {ds ds' : List Definition} (h : ds.Perm ds') :
    (ofDefinitions ds).Perm (ofDefinitions ds') :=
  h.map _

/-- A definition of a new name is registered at the end. -/
theorem declare_of_notMem {d : Definition} (h : d.name ∉ Entries.keys reg) :
    reg.declare d = reg ++ ofDefinitions [d] :=
  Entries.insert_of_notMem d h

theorem declareNew_of_notMem {d : Definition} (h : d.name ∉ Entries.keys reg) :
    reg.declareNew d = reg ++ ofDefinitions [d] := by
  have hcontains : ¬ Entries.contains reg d.name = true := by
    rwa [Entries.contains, Entries.isSome_get?_iff]
  rw [declareNew, if_neg hcontains, declare_of_notMem h]

/-- Definitions of new and different names are registered one after the other. -/
theorem foldl_declareNew_of_nodup {ds : List Definition}
    (h : (Entries.keys reg ++ ds.map (·.name)).Nodup) :
    ds.foldl declareNew reg = reg ++ ofDefinitions ds := by
  induction ds generalizing reg with
  | nil => simp [ofDefinitions]
  | cons d rest ih =>
    have hnew : d.name ∉ Entries.keys reg := fun hmem =>
      (List.nodup_append.mp h).2.2 d.name hmem d.name (by simp) rfl
    rw [List.foldl_cons, declareNew_of_notMem hnew, ih (by simpa using h), List.append_assoc,
      ← ofDefinitions_append, List.singleton_append]

end Registry

namespace Survey

variable {s : Survey}

/-- What a node defines is registered at the end if the names are new and different. -/
theorem registry_observe_of_nodup {node : Value}
    (h : (Entries.keys s.registry ++ (Node.definitions node).map (·.name)).Nodup) :
    (s.observe node).registry = s.registry ++ Registry.ofDefinitions (Node.definitions node) := by
  rw [Node.definitions, List.map_append, ← List.append_assoc] at h
  have hinline := Registry.foldl_declareNew_of_nodup (List.nodup_append.mp h).1
  rw [observe, add, Node.definitions, Registry.ofDefinitions_append, ← List.append_assoc, ← hinline]
  cases hd : (Node.read node).declared with
  | none => simp [Registry.ofDefinitions]
  | some d =>
    rw [hd] at h
    refine Registry.declare_of_notMem fun hmem => ?_
    rw [hinline, Entries.keys_append, Registry.keys_ofDefinitions] at hmem
    exact (List.nodup_append.mp h).2.2 d.name hmem d.name (by simp) rfl

theorem registry_foldl_observe_of_nodup {nodes : List Value}
    (h : (Entries.keys s.registry ++ (nodes.flatMap Node.definitions).map (·.name)).Nodup) :
    (nodes.foldl observe s).registry =
      s.registry ++ Registry.ofDefinitions (nodes.flatMap Node.definitions) := by
  induction nodes generalizing s with
  | nil => simp [Registry.ofDefinitions]
  | cons node rest ih =>
    rw [List.flatMap_cons, List.map_append, ← List.append_assoc] at h
    have hnode := registry_observe_of_nodup (List.nodup_append.mp h).1
    rw [List.foldl_cons, ih (by simpa [hnode] using h), hnode, List.flatMap_cons,
      Registry.ofDefinitions_append, List.append_assoc]

/-- Definitions of different names are registered one after the other. -/
theorem registry_ofNodes_of_nodup {nodes : List Value}
    (h : ((nodes.flatMap Node.definitions).map (·.name)).Nodup) :
    (ofNodes nodes).registry = Registry.ofDefinitions (nodes.flatMap Node.definitions) :=
  registry_foldl_observe_of_nodup (s := empty) h

/-- If their names are different, the definitions do not depend on the order of the nodes. -/
theorem get?_ofNodes_perm {nodes nodes' : List Value} (hperm : nodes.Perm nodes')
    (hdistinct : ((nodes.flatMap Node.definitions).map (·.name)).Nodup) (name : String) :
    Entries.get? (ofNodes nodes).registry name = Entries.get? (ofNodes nodes').registry name := by
  have hdefinitions := hperm.flatMap_right Node.definitions
  rw [registry_ofNodes_of_nodup hdistinct,
    registry_ofNodes_of_nodup ((hdefinitions.map _).nodup_iff.mp hdistinct)]
  refine Entries.get?_perm (Registry.ofDefinitions_perm hdefinitions) ?_ name
  rwa [Entries.Distinct, Registry.keys_ofDefinitions]

end Survey

/-! ## The parents that are left out -/

namespace Inheritance

variable {declared declared' : Entries RecordDef}

/-- A parent that is no declared record is left out of a record as often as it is given. -/
theorem count_unknown_search (child parent : String) :
    (search declared).skipped.count (.unknown child parent) =
      if (Entries.get? declared parent).isSome then 0
      else (((Entries.get? declared child).map (·.parents)).getD []).count parent := by
  cases hr : Entries.get? declared child with
  | none => simp [count_search_of_none hr (s := .unknown child parent) rfl]
  | some r =>
    obtain ⟨before, fields, after, stack, -, hsettled⟩ := exists_settled hr
    exact hsettled.count_unknown

/-- Without cycles, the same parents are left out in every order of the records. -/
theorem skipped_search_perm
    (hdeclared : ∀ name, Entries.get? declared name = Entries.get? declared' name)
    (hacyclic : ∀ name, ¬ TransGen (Extends declared) name name) :
    (search declared).skipped.Perm (search declared').skipped := by
  have hnone {child parent : String} : .cyclic child parent ∉ (search declared).skipped :=
    fun hs => (exists_cyclic_iff.mp ⟨child, parent, hs⟩).elim hacyclic
  have hnone' {child parent : String} : .cyclic child parent ∉ (search declared').skipped := by
    intro hs
    obtain ⟨name, hcycle⟩ := exists_cyclic_iff.mp ⟨child, parent, hs⟩
    exact hacyclic name (extends_congr hdeclared ▸ hcycle)
  rw [List.perm_iff_count]
  intro s
  cases s with
  | cyclic child parent =>
    rw [List.count_eq_zero.mpr hnone, List.count_eq_zero.mpr hnone']
  | unknown child parent =>
    rw [count_unknown_search, count_unknown_search, hdeclared, hdeclared]

end Inheritance

/-! ## The resolution -/

namespace Resolution

section OfSurvey

variable {s s' : Survey} (h : s.registry.Proper) (h' : s'.registry.Proper)
  (hregistry : ∀ name, Entries.get? s.registry name = Entries.get? s'.registry name)
  (hacyclic : ∀ name, ¬ TransGen s.registry.Extends name name)

include h h' hregistry in
/-- The same definitions give the same declared records. -/
theorem get?_declaredRecords_congr (name : String) :
    Entries.get? (declaredRecords s.registry) name =
      Entries.get? (declaredRecords s'.registry) name := by
  rw [h.get?_declaredRecords, h'.get?_declaredRecords, Registry.record?, Registry.record?,
    hregistry]

include h h' hregistry hacyclic

/-- The same definitions under the same names are resolved alike, whatever their order. -/
theorem get?_ofSurvey_congr (name : String) :
    Entries.get? (ofSurvey s).registry name = Entries.get? (ofSurvey s').registry name := by
  have hground (name : String) : Grounded (Inheritance.Extends (declaredRecords s.registry)) name :=
    fun other _ => h.extends_declaredRecords ▸ hacyclic other
  rw [ofSurvey, ofSurvey, Entries.get?_mapWithKey, Entries.get?_mapWithKey, hregistry]
  refine congrArg (Option.map · _) (funext fun d => ?_)
  cases d with
  | record r =>
    rw [withFields, withFields, get?_finished_search_congr
      (get?_declaredRecords_congr h h' hregistry) (hground r.name)]
  | enum e => rfl

/-- Whatever is reported of their parents is reported in both orders. -/
theorem diagnostics_ofSurvey_perm (hdiagnostics : s.diagnostics.Perm s'.diagnostics) :
    (ofSurvey s).diagnostics.Perm (ofSurvey s').diagnostics := by
  refine hdiagnostics.append ((skipped_search_perm
    (get?_declaredRecords_congr h h' hregistry) ?_).map _)
  rwa [h.extends_declaredRecords]

end OfSurvey

/-- Schema nodes whose definitions have different names and whose records do not inherit from each
other in a cycle are resolved alike in every order. -/
theorem ofNodes_perm {nodes nodes' : List Value} (hperm : nodes.Perm nodes')
    (hdistinct : ((nodes.flatMap Node.definitions).map Definition.name).Nodup)
    (hacyclic : ∀ name, ¬ TransGen (Survey.ofNodes nodes).registry.Extends name name) :
    (∀ name, Entries.get? (ofNodes nodes).registry name =
      Entries.get? (ofNodes nodes').registry name) ∧
    (ofNodes nodes).diagnostics.Perm (ofNodes nodes').diagnostics := by
  have hproper := Survey.proper_ofNodes nodes
  have hproper' := Survey.proper_ofNodes nodes'
  have hregistry := Survey.get?_ofNodes_perm hperm hdistinct
  refine ⟨get?_ofSurvey_congr hproper hproper' hregistry hacyclic,
    diagnostics_ofSurvey_perm hproper hproper' hregistry hacyclic ?_⟩
  rw [Survey.ofNodes, Survey.ofNodes, Survey.diagnostics_foldl_observe,
    Survey.diagnostics_foldl_observe]
  exact (hperm.flatMap_right _).append_left _

/-- A record that inherits twice from another one, by way of two more, and from one that is
missing; and a node that declares nothing. -/
def diamondNodes : List Value :=
  [.mapping [("type", .string "record"), ("name", .string "#Bottom"),
      ("extends", .sequence [.string "Left", .string "Missing", .string "Right"]),
      ("fields", .mapping [("bottom", .mapping [("type", .string "enum"),
        ("name", .string "Mode"), ("symbols", .sequence [.string "fast"])])])],
    .mapping [("type", .string "record"), ("name", .string "Left"), ("extends", .string "Top"),
      ("fields", .mapping [("left", .string "int")])],
    .mapping [("type", .string "documentation"), ("name", .string "Intro")],
    .mapping [("type", .string "record"), ("name", .string "Right"), ("extends", .string "Top"),
      ("fields", .mapping [("right", .string "int")])],
    .mapping [("type", .string "record"), ("name", .string "Top"),
      ("fields", .mapping [("top", .string "int")])]]

/-- The lowest record with the fields that come together in it. -/
def bottomRecord : RecordDef where
  name := "Bottom"
  fields := [⟨"bottom", .named "Mode", [], none⟩, ⟨"left", .named "int", [], none⟩,
    ⟨"top", .named "int", [], none⟩, ⟨"right", .named "int", [], none⟩,
    ⟨"top", .named "int", [], none⟩]
  parents := ["Left", "Missing", "Right"]
  doc := []

/-- The fields that come together in the lowest record do not depend on whether it stands before
the others or after them. -/
theorem ofNodes_perm_diamondNodes :
    (diamondNodes.flatMap Node.definitions).map Definition.name =
      ["Mode", "Bottom", "Left", "Right", "Top"] ∧
    (∀ name, ¬ TransGen (Survey.ofNodes diamondNodes).registry.Extends name name) ∧
    Entries.get? (ofNodes diamondNodes).registry "Bottom" = some (.record bottomRecord) ∧
    Entries.get? (ofNodes diamondNodes.reverse).registry "Bottom" = some (.record bottomRecord) ∧
    (ofNodes diamondNodes).diagnostics.Perm (ofNodes diamondNodes.reverse).diagnostics := by
  have hnames : (diamondNodes.flatMap Node.definitions).map Definition.name =
      ["Mode", "Bottom", "Left", "Right", "Top"] := by decide +kernel
  have hdeclared : declaredRecords (Survey.ofNodes diamondNodes).registry =
      [("Bottom", ⟨"Bottom", [⟨"bottom", .named "Mode", [], none⟩],
          ["Left", "Missing", "Right"], []⟩),
        ("Left", ⟨"Left", [⟨"left", .named "int", [], none⟩], ["Top"], []⟩),
        ("Right", ⟨"Right", [⟨"right", .named "int", [], none⟩], ["Top"], []⟩),
        ("Top", ⟨"Top", [⟨"top", .named "int", [], none⟩], [], []⟩)] := by decide +kernel
  have hacyclic (name : String) :
      ¬ TransGen (Survey.ofNodes diamondNodes).registry.Extends name name := by
    rw [← (Survey.proper_ofNodes diamondNodes).extends_declaredRecords, hdeclared]
    intro hcycle
    obtain ⟨child, parent, hs⟩ := exists_cyclic_iff.mpr ⟨name, hcycle⟩
    -- The missing parent is the only one that is left out.
    simp [search, flatten, Entries.get?_cons, Entries.keys, Entries.insert, Progress.empty,
      Progress.skip, Progress.finish] at hs
  have hsurveyed : Entries.get? (Survey.ofNodes diamondNodes).registry "Bottom" =
      some (.record { bottomRecord with fields := [⟨"bottom", .named "Mode", [], none⟩] }) := by
    decide +kernel
  have hfields : Entries.get? (search (declaredRecords
      (Survey.ofNodes diamondNodes).registry)).finished "Bottom" = some bottomRecord.fields := by
    rw [hdeclared]
    simp [search, flatten, Entries.get?_cons, Entries.keys, Entries.insert, Progress.empty,
      Progress.skip, Progress.finish, bottomRecord]
  have hbottom : Entries.get? (ofNodes diamondNodes).registry "Bottom" =
      some (.record bottomRecord) := by
    rw [ofNodes, ofSurvey, Entries.get?_mapWithKey, hsurveyed, Option.map_some, withFields]
    simp only [bottomRecord] at hfields ⊢
    simp only [hfields, Option.getD_some]
  obtain ⟨hregistry, hdiagnostics⟩ := ofNodes_perm (List.reverse_perm diamondNodes).symm
    (hnames ▸ by decide) hacyclic
  exact ⟨hnames, hacyclic, hbottom, (hregistry "Bottom").symm.trans hbottom, hdiagnostics⟩

end Resolution

end CanonicalCwl.Schema
