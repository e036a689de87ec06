import CanonicalCwl.Proofs.Schema.Inheritance
import CanonicalCwl.Proofs.Schema.Inline
import Mathlib.Data.List.DropRight

/-!
# What the Registry of a Schema Holds

Two kinds of definitions meet under the names of a registry. A declaration of a node replaces what
stands under its name. A definition that is written in place only stands under a name that is not
taken, and so it stays only if no node declares the name at all.

- `localName_localName`: a name without its namespace has no namespace.
- `Survey.get?_foldl_observe`, `Survey.keys_foldl_observe`: what nodes add to a registry.
- `Resolution.Registers`: what a resolution registers under which name.
- `Resolution.registers_ofNodes`: the resolution of schema nodes does so.
-/

namespace CanonicalCwl

/-! ## Local names -/

theorem afterLast_eq_rtakeWhile (mark : Char) (cs : List Char) :
    afterLast mark cs = cs.rtakeWhile (· != mark) := rfl

theorem mem_of_mem_afterLast {mark c : Char} {cs : List Char} (h : c ∈ afterLast mark cs) :
    c ∈ cs := by
  rw [afterLast_eq_rtakeWhile] at h
  exact (List.rtakeWhile_suffix _ _).mem h

/-- The mark does not occur after its last occurrence. -/
theorem notMem_afterLast (mark : Char) (cs : List Char) : mark ∉ afterLast mark cs := by
  intro h
  rw [afterLast_eq_rtakeWhile] at h
  simpa using List.mem_rtakeWhile_imp h

/-- All is after the last occurrence of a mark that does not occur. -/
theorem afterLast_of_notMem {mark : Char} {cs : List Char} (h : mark ∉ cs) :
    afterLast mark cs = cs := by
  rw [afterLast_eq_rtakeWhile, List.rtakeWhile_eq_self_iff]
  intro c hc
  have hne : c ≠ mark := fun heq => h (heq ▸ hc)
  simpa using hne

/-- A name without its namespace has no namespace. -/
theorem localName_localName (name : String) : localName (localName name) = localName name := by
  simp only [localName, String.toList_ofList]
  have hhash := notMem_afterLast '#' name.toList
  by_cases hscheme : hasScheme (afterLast '#' name.toList) = true
  · rw [if_pos hscheme, afterLast_of_notMem hhash, if_pos hscheme]
  · -- What follows the last colon of the rest has neither mark, and is no address.
    have hcolon := notMem_afterLast ':' (afterLast '#' name.toList)
    rw [if_neg hscheme, afterLast_of_notMem fun h => hhash (mem_of_mem_afterLast h),
      afterLast_of_notMem hcolon, ite_self]

namespace Schema

open Inheritance

/-! ## Single definitions -/

namespace Definition

/-- The parents that a definition gives; an enumeration has none. -/
def parents : Definition → List String
  | record r => r.parents
  | enum _ => []

/-- The definition with more fields after its own; an enumeration has none. -/
def extendedBy (more : List Field) : Definition → Definition
  | record r => record { r with fields := r.fields ++ more }
  | enum e => enum e

@[simp] theorem extendedBy_nil (d : Definition) : d.extendedBy [] = d := by
  cases d <;> simp [extendedBy]

end Definition

/-- A type that is a definition has a local name and no parents. -/
theorem plain_of_definition? {t : TypeExpr} {d : Definition} (h : t.definition? = some d) :
    localName d.name = d.name ∧ d.parents = [] := by
  cases t with
  | named name => cases h
  | array items => cases h
  | union members => cases h
  | record name fields =>
    rw [TypeExpr.definition?] at h
    split at h
    · cases h
    · cases h
      exact ⟨localName_localName name, rfl⟩
  | enum name symbols =>
    rw [TypeExpr.definition?] at h
    split at h
    · cases h
    · cases h
      exact ⟨localName_localName name, rfl⟩

/-- So has every definition that is written in place inside a type. -/
theorem plain_of_definitionAt {t : TypeExpr} {place : Place} {d : Definition}
    (h : t.definitionAt place = some d) : localName d.name = d.name ∧ d.parents = [] := by
  induction place generalizing t with
  | nil => exact plain_of_definition? h
  | cons i place ih =>
    obtain ⟨part, -, hpart⟩ := Option.bind_eq_some_iff.mp h
    exact ih hpart

/-- A definition that a node declares has a local name. -/
theorem Node.Declares.localName_name {node : Value} {d : Definition} (h : Declares node d) :
    localName d.name = d.name := by
  cases h with
  | record htype hname => exact localName_localName _
  | enum htype hname hsymbols => exact localName_localName _

/-- All definitions of a schema have local names. -/
theorem localName_name_of_mem {nodes : List Value} {d : Definition}
    (h : d ∈ nodes.flatMap Node.definitions) : localName d.name = d.name := by
  obtain ⟨node, -, hd⟩ := List.mem_flatMap.mp h
  rcases List.mem_append.mp hd with hd | hd
  · rw [Node.inline_read] at hd
    obtain ⟨t, -, hd⟩ := List.mem_flatMap.mp hd
    obtain ⟨place, hplace⟩ := t.lists_inlineDefinitions.mem_iff.mp hd
    exact (plain_of_definitionAt hplace).1
  · have hdeclares := Node.declared_read_eq_some_iff.mp (Option.mem_toList.mp hd)
    exact hdeclares.localName_name

/-! ## What is registered under a name -/

namespace Registry

variable {reg : Registry} {names : List String} {name : String}

theorem get?_declare (reg : Registry) (d : Definition) (name : String) :
    Entries.get? (reg.declare d) name = if d.name = name then some d else Entries.get? reg name :=
  Entries.get?_insert reg d.name d name

/-- A definition that is written in place stands under its name only if the name is not taken. -/
theorem get?_declareNew (reg : Registry) (d : Definition) (name : String) :
    Entries.get? (reg.declareNew d) name =
      (Entries.get? reg name).or (if d.name = name then some d else none) := by
  rw [declareNew, Entries.contains]
  by_cases hname : d.name = name
  · subst hname
    cases h : Entries.get? reg d.name with
    | none => simp [get?_declare]
    | some d' => simp [h]
  · split
    · simp
    · simp [get?_declare, hname]

/-- Of the definitions that are written in place, the first one of its name stands under it. -/
theorem get?_foldl_declareNew (ds : List Definition) (name : String) :
    Entries.get? (ds.foldl declareNew reg) name =
      (Entries.get? reg name).or (ds.find? (·.name == name)) := by
  induction ds generalizing reg with
  | nil => simp
  | cons d rest ih =>
    rw [List.foldl_cons, ih, get?_declareNew, Option.or_assoc, List.find?_cons]
    by_cases hname : d.name = name
    · simp [hname]
    · simp [hname, beq_eq_false_iff_ne.mpr hname]

/-- A further name counts unless it has occurred before. -/
theorem eraseDups_concat (names : List String) (name : String) :
    (names ++ [name]).eraseDups =
      if name ∈ names then names.eraseDups else names.eraseDups ++ [name] := by
  rw [List.eraseDups_append]
  by_cases hname : name ∈ names <;> simp [hname, List.removeAll, List.eraseDups_cons]

/-- A declaration appends its name, or keeps the names if it is taken. -/
theorem keys_declare (h : Entries.keys reg = names.eraseDups) (d : Definition) :
    Entries.keys (reg.declare d) = (names ++ [d.name]).eraseDups := by
  rw [declare, Entries.keys_insert, h, eraseDups_concat]
  exact if_congr List.mem_eraseDups rfl rfl

theorem keys_declareNew (h : Entries.keys reg = names.eraseDups) (d : Definition) :
    Entries.keys (reg.declareNew d) = (names ++ [d.name]).eraseDups := by
  rw [declareNew]
  split
  next hcontains =>
    have hmem : d.name ∈ names := by
      rw [← List.mem_eraseDups, ← h]
      exact Entries.isSome_get?_iff.mp hcontains
    rw [eraseDups_concat, if_pos hmem, h]
  next => exact keys_declare h d

theorem keys_foldl_declareNew (h : Entries.keys reg = names.eraseDups) (ds : List Definition) :
    Entries.keys (ds.foldl declareNew reg) = (names ++ ds.map (·.name)).eraseDups := by
  induction ds generalizing reg names with
  | nil => simpa using h
  | cons d rest ih =>
    rw [List.foldl_cons, ih (keys_declareNew h d)]
    simp

end Registry

/-! ## What nodes add to a survey -/

namespace Survey

variable {s : Survey} {names : List String} {name : String}

/-- What a node declares stands under its name, whatever stood there before. -/
theorem get?_observe_of_declares {node : Value} {d : Definition} (h : Node.Declares node d) :
    Entries.get? (s.observe node).registry d.name = some d := by
  rw [observe, add, Node.declared_read_eq_some_iff.mpr h, Registry.get?_declare, if_pos rfl]

/-- Under a name that a node does not declare, it adds what it writes in place. -/
theorem get?_observe {node : Value}
    (h : ∀ d, Node.Declares node d → d.name ≠ name) :
    Entries.get? (s.observe node).registry name =
      (Entries.get? s.registry name).or ((Node.definitions node).find? (·.name == name)) := by
  rw [observe, add, Node.definitions, List.find?_append]
  cases hd : (Node.read node).declared with
  | none => simp [Registry.get?_foldl_declareNew]
  | some d =>
    have hname : d.name ≠ name := h d (Node.declared_read_eq_some_iff.mp hd)
    simp [Registry.get?_declare, Registry.get?_foldl_declareNew, hname]

/-- Under a name that no node declares stands what was there, or what is written first. -/
theorem get?_foldl_observe {nodes : List Value}
    (h : ∀ node ∈ nodes, ∀ d, Node.Declares node d → d.name ≠ name) :
    Entries.get? (nodes.foldl observe s).registry name =
      (Entries.get? s.registry name).or
        ((nodes.flatMap Node.definitions).find? (·.name == name)) := by
  induction nodes generalizing s with
  | nil => simp
  | cons node rest ih =>
    rw [List.foldl_cons, ih fun node hnode => h node (List.mem_cons_of_mem _ hnode),
      get?_observe (h node (List.mem_cons_self ..)), List.flatMap_cons, List.find?_append,
      Option.or_assoc]

theorem keys_observe (h : Entries.keys s.registry = names.eraseDups) (node : Value) :
    Entries.keys (s.observe node).registry =
      (names ++ (Node.definitions node).map (·.name)).eraseDups := by
  have hinline := Registry.keys_foldl_declareNew h (Node.read node).inline
  rw [observe, add, Node.definitions]
  cases (Node.read node).declared with
  | none => simpa using hinline
  | some d => simpa using Registry.keys_declare hinline d

/-- The names are registered in the order in which they are first met. -/
theorem keys_foldl_observe (h : Entries.keys s.registry = names.eraseDups) (nodes : List Value) :
    Entries.keys (nodes.foldl observe s).registry =
      (names ++ (nodes.flatMap Node.definitions).map (·.name)).eraseDups := by
  induction nodes generalizing s names with
  | nil => simpa using h
  | cons node rest ih =>
    rw [List.foldl_cons, ih (keys_observe h node)]
    simp

/-- What nodes register does not depend on what was reported before. -/
theorem registry_foldl_observe (nodes : List Value) {s s' : Survey}
    (h : s.registry = s'.registry) :
    (nodes.foldl observe s).registry = (nodes.foldl observe s').registry := by
  induction nodes generalizing s s' with
  | nil => exact h
  | cons node rest ih =>
    apply ih
    simp only [observe, add, h]

/-- What nodes report does not depend on what has been registered. -/
theorem diagnostics_foldl_observe (nodes : List Value) (s : Survey) :
    (nodes.foldl observe s).diagnostics =
      s.diagnostics ++ nodes.flatMap fun node => (Node.read node).diagnostics := by
  induction nodes generalizing s with
  | nil => simp
  | cons node rest ih =>
    rw [List.foldl_cons, ih, List.flatMap_cons, ← List.append_assoc]
    rfl

/-- A node that is refused registers nothing. -/
theorem registry_observe_of_refused {node : Value} (h : ∀ d, ¬ Node.Declares node d) :
    (s.observe node).registry = s.registry := by
  obtain ⟨d, hread⟩ := Node.exists_read_eq_refused h
  rw [observe, hread]
  rfl

end Survey

/-! ## What a resolution registers -/

namespace Resolution

/-- The fields that a definition takes over from its parents, those left out apart. -/
def inherited (skipped : List Skip) (res : Resolution) (d : Definition) : List Field :=
  (remaining skipped d.name d.parents).flatMap res.registry.fields

/-- What a resolution registers under the names of the definitions of a schema. -/
structure Registers (nodes : List Value) (skipped : List Skip) (res : Resolution) : Prop where
  /-- Every definition stands under its own name, which is a local one. -/
  named : ∀ name d, (name, d) ∈ res.registry → name = d.name ∧ localName name = name
  /-- Under a name that nodes declare stands the last declaration, with the inherited fields
  after its own. -/
  declared : ∀ before node after d, nodes = before ++ node :: after →
    Node.Declares node d →
    (∀ later ∈ after, ∀ d', Node.Declares later d' → d'.name ≠ d.name) →
    Entries.get? res.registry d.name = some (d.extendedBy (res.inherited skipped d))
  /-- Under any other name stands what is written in place first. -/
  inline : ∀ name, (∀ node ∈ nodes, ∀ d, Node.Declares node d → d.name ≠ name) →
    ∀ d, Entries.get? res.registry name = some d ↔
      ∃ place, IsFirst (definitionAt nodes) (·.name = name) place d
  /-- The names are in the order in which they are first met. -/
  keys : ∃ placed, Postorder (definitionAt nodes) placed ∧
    Entries.keys res.registry = (placed.map (·.2.name)).eraseDups
  /-- A node that declares nothing is reported once and otherwise makes no difference. -/
  refused : ∀ before node after, nodes = before ++ node :: after →
    (∀ d, ¬ Node.Declares node d) →
    (ofNodes (before ++ after)).registry = res.registry ∧
    ∃ d rest, (Node.read node).diagnostics = [d] ∧
      res.diagnostics = (Survey.ofNodes before).diagnostics ++ d :: rest ∧
      (ofNodes (before ++ after)).diagnostics = (Survey.ofNodes before).diagnostics ++ rest

section OfSurvey

variable {s : Survey} {name : String} {d : Definition}

/-- A resolution extends a definition by the fields that it inherits. -/
theorem get?_ofSurvey (h : s.registry.Proper) (hd : Entries.get? s.registry name = some d) :
    Entries.get? (ofSurvey s).registry name = some (d.extendedBy
      ((ofSurvey s).inherited (search (declaredRecords s.registry)).skipped d)) := by
  have hname : name = d.name := h.named (name, d) (Entries.mem_of_get? hd)
  have hregistry : Entries.get? (ofSurvey s).registry name =
      some (withFields (search (declaredRecords s.registry)).finished d) := by
    rw [ofSurvey, Entries.get?_mapWithKey, hd]
    rfl
  rw [hregistry, Option.some_inj]
  cases d with
  | enum e => rfl
  | record r =>
    have hrecord : Entries.get? (declaredRecords s.registry) r.name = some r := by
      rw [h.get?_declaredRecords, Registry.record?, ← show name = r.name from hname, hd]
      rfl
    have hfields : (ofSurvey s).registry.fields = fun parent =>
        (Entries.get? (search (declaredRecords s.registry)).finished parent).getD [] :=
      funext (fields_ofSurvey h)
    rw [withFields, get?_finished_search hrecord, inherited, hfields]
    rfl

/-- Nothing more is registered by a resolution, and a definition without parents stays as it is. -/
theorem get?_ofSurvey_eq_some_iff (h : s.registry.Proper)
    (hplain : ∀ d, Entries.get? s.registry name = some d → d.parents = []) :
    Entries.get? (ofSurvey s).registry name = some d ↔ Entries.get? s.registry name = some d := by
  cases hd : Entries.get? s.registry name with
  | none =>
    rw [ofSurvey, Entries.get?_mapWithKey, hd]
    simp
  | some d' =>
    have hnone : (ofSurvey s).inherited (search (declaredRecords s.registry)).skipped d' = [] := by
      rw [inherited, hplain d' hd]
      rfl
    rw [get?_ofSurvey h hd, hnone, Definition.extendedBy_nil]

end OfSurvey

section OfNodes

variable {nodes : List Value} {node : Value} {name : String} {d : Definition}

theorem keys_ofNodes (nodes : List Value) :
    Entries.keys (ofNodes nodes).registry =
      ((nodes.flatMap Node.definitions).map (·.name)).eraseDups := by
  have hempty : Entries.keys Survey.empty.registry = [].eraseDups := rfl
  rw [ofNodes, ofSurvey, Entries.keys_mapWithKey, Survey.ofNodes, Survey.keys_foldl_observe hempty,
    List.nil_append]

/-- The last definition that a node declares under a name stays. -/
theorem get?_ofNodes_of_declares {before after : List Value} (hd : Node.Declares node d)
    (hlast : ∀ later ∈ after, ∀ d', Node.Declares later d' → d'.name ≠ d.name) :
    Entries.get? (Survey.ofNodes (before ++ node :: after)).registry d.name = some d := by
  rw [Survey.ofNodes, List.foldl_append, List.foldl_cons, Survey.get?_foldl_observe hlast,
    Survey.get?_observe_of_declares hd, Option.some_or]

/-- Under a name that no node declares stands what is written in place first. -/
theorem get?_ofNodes_eq_some_iff
    (h : ∀ node ∈ nodes, ∀ d, Node.Declares node d → d.name ≠ name) :
    Entries.get? (Survey.ofNodes nodes).registry name = some d ↔
      ∃ place, IsFirst (definitionAt nodes) (·.name = name) place d := by
  rw [Survey.ofNodes, Survey.get?_foldl_observe h, Survey.empty, Entries.get?_nil, Option.none_or,
    (lists_definitions nodes).find?_eq_some_iff]
  simp

/-- Such a definition has no parents. -/
theorem parents_eq_nil_of_get?
    (h : ∀ node ∈ nodes, ∀ d, Node.Declares node d → d.name ≠ name)
    (hd : Entries.get? (Survey.ofNodes nodes).registry name = some d) : d.parents = [] := by
  obtain ⟨place, hfirst⟩ := (get?_ofNodes_eq_some_iff h).mp hd
  have hplace := hfirst.stands
  match place with
  | [] => cases hplace
  | k :: place =>
    obtain ⟨node, hnode, hplace⟩ := Option.bind_eq_some_iff.mp hplace
    match place with
    | [] =>
      have hdeclares := Node.declared_read_eq_some_iff.mp hplace
      exact absurd hfirst.satisfies (h node (List.mem_of_getElem? hnode) d hdeclares)
    | i :: place =>
      obtain ⟨t, -, hplace⟩ := Option.bind_eq_some_iff.mp hplace
      exact (plain_of_definitionAt hplace).2

/-- Every definition stands under its own name, which is a local one. -/
theorem named_ofNodes (hmem : (name, d) ∈ (ofNodes nodes).registry) :
    name = d.name ∧ localName name = name := by
  constructor
  · simp only [ofNodes, ofSurvey, Entries.mem_mapWithKey] at hmem
    obtain ⟨d', hmem, rfl⟩ := hmem
    have hname := (Survey.proper_ofNodes nodes).named (name, d') hmem
    cases d' <;> exact hname
  · have hkey : name ∈ Entries.keys (ofNodes nodes).registry := List.mem_map.mpr ⟨_, hmem, rfl⟩
    rw [keys_ofNodes, List.mem_eraseDups] at hkey
    obtain ⟨d', hd', rfl⟩ := List.mem_map.mp hkey
    exact localName_name_of_mem hd'

/-- A node that is refused makes no difference to what is registered. -/
theorem registry_ofNodes_of_refused (before after : List Value)
    (h : ∀ d, ¬ Node.Declares node d) :
    (Survey.ofNodes (before ++ node :: after)).registry =
      (Survey.ofNodes (before ++ after)).registry := by
  rw [Survey.ofNodes, Survey.ofNodes, List.foldl_append, List.foldl_append, List.foldl_cons]
  apply Survey.registry_foldl_observe
  exact Survey.registry_observe_of_refused h

/-- What later nodes report comes after what earlier ones do, and then what the search reports. -/
theorem diagnostics_ofNodes (before after : List Value) :
    (ofNodes (before ++ after)).diagnostics = (Survey.ofNodes before).diagnostics ++
      ((after.flatMap fun node => (Node.read node).diagnostics) ++
        (search (declaredRecords (Survey.ofNodes (before ++ after)).registry)).skipped.map
          Skip.diagnostic) := by
  have hsurvey : (Survey.ofNodes (before ++ after)).diagnostics =
      (Survey.ofNodes before).diagnostics ++
        after.flatMap fun node => (Node.read node).diagnostics := by
    rw [Survey.ofNodes, List.foldl_append, Survey.diagnostics_foldl_observe, ← Survey.ofNodes]
  rw [← List.append_assoc, ← hsurvey]
  rfl

end OfNodes

/-- The resolution of schema nodes registers the last declaration of a name or else what is
written in place first under it. -/
theorem registers_ofNodes (nodes : List Value) :
    Registers nodes (search (declaredRecords (Survey.ofNodes nodes).registry)).skipped
      (ofNodes nodes) := by
  have hproper := Survey.proper_ofNodes nodes
  constructor
  case named => exact fun name d hmem => named_ofNodes hmem
  case declared =>
    intro before node after d hnodes hd hlast
    subst hnodes
    exact get?_ofSurvey hproper (get?_ofNodes_of_declares hd hlast)
  case inline =>
    intro name h d
    rw [← get?_ofNodes_eq_some_iff h]
    exact get?_ofSurvey_eq_some_iff hproper fun d hd => parents_eq_nil_of_get? h hd
  case keys =>
    obtain ⟨placed, hplaced, heq⟩ := lists_definitions nodes
    refine ⟨placed, hplaced, ?_⟩
    rw [keys_ofNodes, ← heq, List.map_map]
    rfl
  case refused =>
    intro before node after hnodes hnone
    subst hnodes
    have hregistry := registry_ofNodes_of_refused before after hnone
    obtain ⟨d, hread⟩ := Node.exists_read_eq_refused hnone
    have hreported : (Node.read node).diagnostics = [d] := by rw [hread, Node.refused]
    refine ⟨by rw [ofNodes, ofNodes, ofSurvey, ofSurvey, hregistry], d, _, hreported, ?_,
      diagnostics_ofNodes before after⟩
    rw [diagnostics_ofNodes, List.flatMap_cons, hreported, hregistry]
    rfl

end Resolution

end Schema

end CanonicalCwl
