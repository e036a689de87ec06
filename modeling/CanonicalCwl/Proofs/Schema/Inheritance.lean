import CanonicalCwl.Proofs.Schema.Search
import CanonicalCwl.Proofs.Schema.Survey

/-!
# What Records Inherit

The relation between records and their parents may have cycles. The search for inherited fields
leaves out some parents, so that the relation that remains has none, and along it every record
has its own fields and those of its remaining parents.

- `Resolution.Inherits`: what a resolution makes of the records of a survey.
- `Resolution.inherits_ofNodes`: the resolution of schema nodes does so, with the parents that the
  search has left out.
-/

namespace CanonicalCwl.Schema

open Relation

namespace Inheritance

variable {declared : Entries RecordDef} {stack : List String} {name parent : String}
  {parents : List String} {before : Entries (List Field)} {skipped : List Skip}
  {fields : List Field} {r : RecordDef}

/-- The parents of a record that are not left out as cyclic. -/
def remaining (skipped : List Skip) (name : String) (parents : List String) : List String :=
  parents.filter fun parent => .cyclic name parent ∉ skipped

/-- What the remaining parents give is what all parents give, except for those left out. -/
theorem flatMap_remaining (give : String → List Field) :
    (remaining skipped name parents).flatMap give =
      parents.flatMap fun parent => if .cyclic name parent ∈ skipped then [] else give parent := by
  induction parents with
  | nil => rfl
  | cons p rest ih =>
    rw [remaining] at ih
    rw [remaining, List.filter_cons, List.flatMap_cons, ← ih]
    by_cases hp : .cyclic name p ∈ skipped <;> simp [hp]

/-- A parent that the search is inside of is left out as often as it is given. -/
theorem count_cyclic_skips :
    (skips declared stack name parents).count (.cyclic name parent) =
      if parent ∈ stack then parents.count parent else 0 := by
  induction parents with
  | nil => simp [skips]
  | cons p rest ih =>
    rw [List.count_cons]
    by_cases hp : p ∈ stack
    · rw [skips_cons_cyclic hp, List.count_cons, ih]
      by_cases heq : p = parent
      · subst heq
        simp [hp]
      · simp [heq]
    · have hne (h : parent ∈ stack) : p ≠ parent := fun heq => hp (heq ▸ h)
      cases hr : Entries.get? declared p with
      | none =>
        rw [skips_cons_unknown hp hr, List.count_cons, ih]
        split <;> simp_all
      | some r =>
        rw [skips_cons_declared hp hr, ih]
        split <;> simp_all

/-- A parent that is no declared record is left out as often as it is given. -/
theorem count_unknown_skips (hstack : ∀ a ∈ stack, (Entries.get? declared a).isSome) :
    (skips declared stack name parents).count (.unknown name parent) =
      if (Entries.get? declared parent).isSome then 0 else parents.count parent := by
  induction parents with
  | nil => simp [skips]
  | cons p rest ih =>
    rw [List.count_cons]
    by_cases hp : p ∈ stack
    · have hdeclared := hstack p hp
      rw [skips_cons_cyclic hp, List.count_cons, ih]
      by_cases heq : p = parent
      · subst heq
        simp [hdeclared]
      · simp [heq]
    · cases hr : Entries.get? declared p with
      | none =>
        rw [skips_cons_unknown hp hr, List.count_cons, ih]
        by_cases heq : p = parent
        · subst heq
          simp [hr]
        · simp [heq]
      | some r =>
        rw [skips_cons_declared hp hr, ih]
        by_cases heq : p = parent
        · subst heq
          simp [hr]
        · simp [heq]

/-! ## One settled record -/

section Settled

variable (h : Settled declared before skipped name fields r stack)

include h

/-- The records that the search was inside of are declared. -/
theorem Settled.isSome_of_mem_stack {a : String} (ha : a ∈ stack) :
    (Entries.get? declared a).isSome := by
  rcases (h.reaches a ha).cases_head with rfl | ⟨b, ⟨r, hr, -⟩, -⟩
  · rw [h.record]
    rfl
  · rw [hr]
    rfl

/-- What is left out of the record is counted among its parents. -/
theorem Settled.count_eq {s : Skip} (hs : s.record = name) :
    skipped.count s = (skips declared stack name r.parents).count s := by
  rw [← h.leaves, about, List.count_filter (by simpa using hs)]

theorem Settled.count_cyclic :
    skipped.count (.cyclic name parent) =
      if parent ∈ stack then r.parents.count parent else 0 := by
  rw [h.count_eq rfl, count_cyclic_skips]

theorem Settled.count_unknown :
    skipped.count (.unknown name parent) =
      if (Entries.get? declared parent).isSome then 0 else r.parents.count parent := by
  rw [h.count_eq rfl, count_unknown_skips fun _ => h.isSome_of_mem_stack]

/-- A parent is left out as cyclic exactly if the search was inside of it. -/
theorem Settled.cyclic_mem_iff (hparent : parent ∈ r.parents) :
    .cyclic name parent ∈ skipped ↔ parent ∈ stack := by
  rw [← List.count_pos_iff, h.count_cyclic]
  split
  next hstack => simpa [hstack] using hparent
  next hstack => simpa using hstack

/-- What is left out as cyclic is a declared parent, and leads back to the record. -/
theorem Settled.extends_of_cyclic (hs : .cyclic name parent ∈ skipped) :
    Extends declared name parent ∧ ReflTransGen (Extends declared) parent name := by
  have hcount := List.count_pos_iff.mpr hs
  rw [h.count_cyclic] at hcount
  split at hcount
  next hstack =>
    exact ⟨⟨r, h.record, List.count_pos_iff.mp hcount, h.isSome_of_mem_stack hstack⟩,
      h.reaches parent hstack⟩
  next => omega

end Settled

/-! ## The whole search -/

/-- Every declared record is settled when it is finished. -/
theorem exists_settled (hr : Entries.get? declared name = some r) :
    ∃ before fields after stack,
      (search declared).finished = before ++ (name, fields) :: after ∧
        Settled declared before (search declared).skipped name fields r stack := by
  have hname : name ∈ Entries.keys (search declared).finished :=
    mem_keys_finished_search.mpr (Entries.isSome_get?_iff.mp (by rw [hr]; rfl))
  obtain ⟨⟨name, fields⟩, hmem, rfl⟩ := List.mem_map.mp hname
  obtain ⟨before, after, heq⟩ := List.append_of_mem hmem
  obtain ⟨r', stack, hsettled⟩ := (sound_search declared).settled before name fields after heq
  obtain rfl := Option.some.inj (hr.symm.trans hsettled.record)
  exact ⟨before, fields, after, stack, heq, hsettled⟩

/-- Every field of a finished record is a field of a declared one. -/
theorem Sound.exists_declared_field {p : Progress} (h : Sound declared p)
    (hmem : (name, fields) ∈ p.finished) {f : Field} (hf : f ∈ fields) :
    ∃ origin r, Entries.get? declared origin = some r ∧ f ∈ r.fields := by
  obtain ⟨before, after, heq⟩ := List.append_of_mem hmem
  clear hmem
  -- An inherited field comes from a record that was finished before.
  induction hlength : before.length using Nat.strongRecOn
    generalizing name fields before after with
  | ind n ih =>
    obtain ⟨r, stack, hsettled⟩ := h.settled before name fields after heq
    rw [hsettled.inherits] at hf
    rcases List.mem_append.mp hf with hf | hf
    · exact ⟨name, r, hsettled.record, hf⟩
    · obtain ⟨parent, -, hf⟩ := List.mem_flatMap.mp hf
      split_ifs at hf
      · cases hf
      cases hget : Entries.get? before parent with
      | none => simp [hget] at hf
      | some more =>
        have hmore : f ∈ more := by simpa [hget] using hf
        obtain ⟨first, last, rfl⟩ := List.append_of_mem (Entries.mem_of_get? hget)
        have heq : p.finished = first ++ (parent, more) :: (last ++ (name, fields) :: after) := by
          rw [heq, List.append_assoc, List.cons_append]
        exact ih first.length (by simp at hlength; omega) hmore first _ heq rfl

/-- A record was not finished before it was. -/
theorem notMem_keys_before {after : Entries (List Field)}
    (heq : (search declared).finished = before ++ (name, fields) :: after) :
    name ∉ Entries.keys before := by
  have hdistinct := (sound_search declared).distinct
  rw [heq, Entries.Distinct, Entries.keys_append] at hdistinct
  intro hmem
  exact (List.nodup_append.mp hdistinct).2.2 name hmem name (by simp [Entries.keys]) rfl

/-- A record gives another one as its parent, and the search has not left it out. -/
def Remains (declared : Entries RecordDef) (child parent : String) : Prop :=
  Extends declared child parent ∧ .cyclic child parent ∉ (search declared).skipped

/-- A remaining parent is finished before the record. -/
theorem idxOf_lt_of_remains {child : String} (h : Remains declared child parent) :
    (Entries.keys (search declared).finished).idxOf parent <
      (Entries.keys (search declared).finished).idxOf child := by
  obtain ⟨⟨r, hr, hparent, hdeclared⟩, hkept⟩ := h
  obtain ⟨before, fields, after, stack, heq, hsettled⟩ := exists_settled hr
  have hstack : parent ∉ stack := fun hmem => hkept ((hsettled.cyclic_mem_iff hparent).mpr hmem)
  have hbefore := hsettled.parents parent hparent hstack hdeclared
  rw [heq, Entries.keys_append, List.idxOf_append_of_mem hbefore,
    List.idxOf_append_of_notMem (notMem_keys_before heq)]
  exact Nat.lt_add_right _ (List.idxOf_lt_length_of_mem hbefore)

/-- So is every record that is reached through remaining parents. -/
theorem idxOf_lt_of_transGen_remains {child : String}
    (h : TransGen (Remains declared) child parent) :
    (Entries.keys (search declared).finished).idxOf parent <
      (Entries.keys (search declared).finished).idxOf child := by
  induction h with
  | single hremains => exact idxOf_lt_of_remains hremains
  | tail _ hremains ih => exact Nat.lt_trans (idxOf_lt_of_remains hremains) ih

/-- What remains has no cycle. -/
theorem acyclic_remains : ¬ TransGen (Remains declared) name name := fun hcycle =>
  Nat.lt_irrefl _ (idxOf_lt_of_transGen_remains hcycle)

/-- What leaves out a parent as cyclic is a declared record. -/
theorem exists_record_of_cyclic (hs : .cyclic name parent ∈ (search declared).skipped) :
    ∃ r, Entries.get? declared name = some r :=
  Option.isSome_iff_exists.mp (Entries.isSome_get?_iff.mpr (record_mem_of_mem_skipped hs))

/-- Something is left out as cyclic exactly if there is a cycle. -/
theorem exists_cyclic_iff :
    (∃ child parent, .cyclic child parent ∈ (search declared).skipped) ↔
      ∃ name, TransGen (Extends declared) name name := by
  constructor
  · rintro ⟨child, parent, hs⟩
    obtain ⟨r, hr⟩ := exists_record_of_cyclic hs
    obtain ⟨before, fields, after, stack, -, hsettled⟩ := exists_settled hr
    obtain ⟨hextends, hback⟩ := hsettled.extends_of_cyclic hs
    exact ⟨child, .head' hextends hback⟩
  · rintro ⟨name, hcycle⟩
    by_contra hnone
    have hremains : Extends declared ≤ Remains declared := fun child parent hextends =>
      ⟨hextends, fun hs => hnone ⟨child, parent, hs⟩⟩
    exact acyclic_remains (TransGen.mono hremains _ _ hcycle)

/-- The fields of a finished record are its own and those of its remaining parents. -/
theorem get?_finished_search (hr : Entries.get? declared name = some r) :
    Entries.get? (search declared).finished name =
      some (r.fields ++ (remaining (search declared).skipped name r.parents).flatMap fun parent =>
        (Entries.get? (search declared).finished parent).getD []) := by
  obtain ⟨before, fields, after, stack, heq, hsettled⟩ := exists_settled hr
  have hname : Entries.get? (search declared).finished name = some fields := by
    rw [heq, Entries.get?_append, Entries.get?_eq_none_iff.mpr (notMem_keys_before heq)]
    simp [Entries.get?_cons]
  rw [hname, hsettled.inherits, inherited, flatMap_remaining]
  refine congrArg (fun more => some (r.fields ++ more))
    (List.flatMap_congr fun parent hparent => ?_)
  rw [if_congr (hsettled.cyclic_mem_iff hparent) rfl rfl]
  split
  · rfl
  next hstack =>
  congr 1
  cases hdeclared : Entries.get? declared parent with
  | some q =>
    -- The parent was finished before, and stays as it was.
    have hbefore := hsettled.parents parent hparent hstack (by rw [hdeclared]; rfl)
    obtain ⟨inside, hinside⟩ := Option.isSome_iff_exists.mp (Entries.isSome_get?_iff.mpr hbefore)
    rw [heq, Entries.get?_append, hinside, Option.some_or]
  | none =>
    have hopen := get?_finished_search_eq_none_iff.mpr hdeclared
    rw [hopen]
    rw [heq, Entries.get?_append] at hopen
    exact (Option.or_eq_none_iff.mp hopen).1

/-- What is left out as cyclic is left out as often as it is given. -/
theorem count_cyclic_search (hr : Entries.get? declared name = some r)
    (hs : .cyclic name parent ∈ (search declared).skipped) :
    (search declared).skipped.count (.cyclic name parent) = r.parents.count parent := by
  obtain ⟨before, fields, after, stack, -, hsettled⟩ := exists_settled hr
  have hcount := List.count_pos_iff.mpr hs
  rw [hsettled.count_cyclic] at hcount ⊢
  split
  · rfl
  next hstack => simp [hstack] at hcount

/-- Nothing is left out of what is no declared record. -/
theorem count_search_of_none (hr : Entries.get? declared name = none) {s : Skip}
    (hs : s.record = name) : (search declared).skipped.count s = 0 := by
  rw [List.count_eq_zero]
  intro hmem
  exact Entries.get?_eq_none_iff.mp hr (hs ▸ record_mem_of_mem_skipped hmem)

end Inheritance

open Inheritance

/-! ## The records of a survey -/

namespace Registry

variable {reg : Registry}

/-- The parents that a record gives; none if there is no such record. -/
def parents (reg : Registry) (name : String) : List String :=
  ((reg.record? name).map RecordDef.parents).getD []

/-- The fields of a record; none if there is no such record. -/
def fields (reg : Registry) (name : String) : List Field :=
  ((reg.record? name).map RecordDef.fields).getD []

/-- A record gives another one as its parent. -/
def Extends (reg : Registry) (child parent : String) : Prop :=
  parent ∈ reg.parents child ∧ (reg.record? parent).isSome

/-- The search goes along the parents of the records of a registry. -/
theorem Proper.extends_declaredRecords (h : Proper reg) :
    Inheritance.Extends (declaredRecords reg) = reg.Extends := by
  funext child parent
  rw [Inheritance.Extends, Registry.Extends, Registry.parents, h.get?_declaredRecords,
    h.get?_declaredRecords]
  cases reg.record? child <;> simp

theorem keys_declaredRecords (reg : Registry) :
    Entries.keys (declaredRecords reg) = reg.records.map (·.name) := by
  rw [Entries.keys, declaredRecords, Registry.records, List.map_filterMap, List.map_filterMap]
  simp [Function.comp_def]

/-- The names of the declared records are among those of the registry. -/
theorem Named.sublist_keys (h : Named reg) :
    (Entries.keys (declaredRecords reg)).Sublist (Entries.keys reg) := by
  induction reg with
  | nil => exact .slnil
  | cons e rest ih =>
    obtain ⟨k, d⟩ := e
    have ih := ih fun e he => h e (List.mem_cons_of_mem _ he)
    cases d with
    | record r =>
      have hname : k = r.name := h (k, .record r) (List.mem_cons_self ..)
      show (r.name :: Entries.keys (declaredRecords rest)).Sublist (k :: Entries.keys rest)
      rw [hname]
      exact ih.cons_cons r.name
    | enum e => exact ih.cons k

end Registry

namespace Resolution

/-- What a resolution makes of the records of a survey, if the search has found what `p` says. -/
structure Inherits (s : Survey) (p : Progress) (res : Resolution) : Prop where
  /-- The search comes to an end: every record is finished, and is so once. -/
  finished : (Entries.keys p.finished).Perm (s.registry.records.map (·.name))
  /-- Every parent that is left out is reported. -/
  reported : res.diagnostics = s.diagnostics ++ p.skipped.map Skip.diagnostic
  cycle : (∃ name, .extendsCycle name ∈ res.diagnostics) ↔
    ∃ name, TransGen s.registry.Extends name name
  /-- What is left out as cyclic is left out as often as it is given as a parent. -/
  cyclic : ∀ child parent, .cyclic child parent ∈ p.skipped →
    p.skipped.count (.cyclic child parent) = (s.registry.parents child).count parent
  acyclic : ∀ name, ¬ TransGen (fun child parent =>
    s.registry.Extends child parent ∧ .cyclic child parent ∉ p.skipped) name name
  /-- The own fields come first, then those of the remaining parents, in order. -/
  fields : ∀ name, res.registry.record? name = (s.registry.record? name).map fun r =>
    { r with fields :=
        r.fields ++ (remaining p.skipped name r.parents).flatMap res.registry.fields }
  /-- A parent that is no record is reported as often as it is given. -/
  unknown : ∀ child parent, res.diagnostics.count (.unknownParent child parent) =
    if (s.registry.record? parent).isSome then 0 else (s.registry.parents child).count parent

section OfSurvey

variable {s : Survey}

/-- A record keeps all but its fields, which are those that the search found. -/
theorem record?_ofSurvey (h : s.registry.Proper) (name : String) :
    (ofSurvey s).registry.record? name = (s.registry.record? name).map fun r =>
      { r with fields :=
        (Entries.get? (search (declaredRecords s.registry)).finished name).getD r.fields } := by
  rw [Registry.record?, Registry.record?, ofSurvey, Entries.get?_mapWithKey]
  cases hd : Entries.get? s.registry name with
  | none => rfl
  | some definition =>
    cases definition with
    | enum e => rfl
    | record r =>
      have hname : name = r.name := h.named (name, .record r) (Entries.mem_of_get? hd)
      subst hname
      rfl

/-- The fields of a record are those that the search found. -/
theorem fields_ofSurvey (h : s.registry.Proper) (name : String) :
    (ofSurvey s).registry.fields name =
      (Entries.get? (search (declaredRecords s.registry)).finished name).getD [] := by
  rw [Registry.fields, record?_ofSurvey h]
  match hr : Entries.get? (declaredRecords s.registry) name with
  | some r =>
    rw [← h.get?_declaredRecords, hr, get?_finished_search hr]
    rfl
  | none =>
    rw [← h.get?_declaredRecords, hr, get?_finished_search_eq_none_iff.mpr hr]
    rfl

/-- A record that is alone and has no parents keeps its fields. -/
theorem registry_ofSurvey_of_lone {name : String} {r : RecordDef}
    (h : s.registry = [(name, .record r)]) (hname : r.name = name) (hparents : r.parents = []) :
    (ofSurvey s).registry = [(name, .record r)] := by
  subst hname
  have hdeclared : Entries.get? (declaredRecords s.registry) r.name = some r := by
    rw [h]
    exact if_pos rfl
  have hfinished := get?_finished_search hdeclared
  rw [hparents] at hfinished
  have hfields : withFields (search (declaredRecords s.registry)).finished (.record r) =
      .record r := by
    rw [withFields, hfinished]
    simp [remaining]
  rw [ofSurvey]
  generalize (search (declaredRecords s.registry)).finished = finished at hfields
  rw [h]
  exact congrArg (fun d => [(r.name, d)]) hfields

/-- What is reported of cycles is what the search has left out as cyclic. -/
theorem extendsCycle_mem_ofSurvey_iff (h : ∀ d ∈ s.diagnostics, d.OfNode) {name : String} :
    .extendsCycle name ∈ (ofSurvey s).diagnostics ↔
      ∃ parent, .cyclic name parent ∈ (search (declaredRecords s.registry)).skipped := by
  rw [ofSurvey, List.mem_append, List.mem_map]
  constructor
  · rintro (hmem | ⟨skip, hskip, heq⟩)
    · exact (h _ hmem).elim
    · cases skip with
      | cyclic record parent =>
        obtain rfl := Diagnostic.extendsCycle.inj heq
        exact ⟨parent, hskip⟩
      | unknown record parent => cases heq
  · rintro ⟨parent, hmem⟩
    exact .inr ⟨_, hmem, rfl⟩

/-- What is reported of unknown parents is what the search has left out as unknown. -/
theorem count_unknownParent_ofSurvey (h : ∀ d ∈ s.diagnostics, d.OfNode) (child parent : String) :
    (ofSurvey s).diagnostics.count (.unknownParent child parent) =
      (search (declaredRecords s.registry)).skipped.count (.unknown child parent) := by
  have hsurvey : s.diagnostics.count (.unknownParent child parent) = 0 :=
    List.count_eq_zero.mpr fun hmem => h _ hmem
  rw [ofSurvey, List.count_append, hsurvey, Nat.zero_add, List.count, List.countP_map, List.count]
  refine List.countP_congr fun skip _ => ?_
  cases skip <;> simp [Skip.diagnostic]

end OfSurvey

/-- The resolution of schema nodes gives every record its own fields and those of its remaining
parents, and reports every parent that does not remain. -/
theorem inherits_ofNodes (nodes : List Value) :
    Inherits (Survey.ofNodes nodes)
      (search (declaredRecords (Survey.ofNodes nodes).registry)) (ofNodes nodes) := by
  have hproper := Survey.proper_ofNodes nodes
  have hnode : ∀ d ∈ (Survey.ofNodes nodes).diagnostics, d.OfNode := Survey.ofNode_ofNodes
  rw [ofNodes]
  generalize Survey.ofNodes nodes = s at hproper hnode
  constructor
  case finished =>
    rw [← Registry.keys_declaredRecords]
    refine (List.perm_ext_iff_of_nodup (sound_search _).distinct ?_).mpr fun name =>
      mem_keys_finished_search
    exact hproper.distinct.sublist hproper.named.sublist_keys
  case reported => rfl
  case cycle =>
    simp only [extendsCycle_mem_ofSurvey_iff hnode]
    rw [exists_cyclic_iff, hproper.extends_declaredRecords]
  case cyclic =>
    intro child parent hs
    obtain ⟨r, hr⟩ := exists_record_of_cyclic hs
    rw [count_cyclic_search hr hs, Registry.parents, ← hproper.get?_declaredRecords, hr]
    rfl
  case acyclic =>
    intro name
    rw [← hproper.extends_declaredRecords]
    exact acyclic_remains
  case fields =>
    intro name
    rw [record?_ofSurvey hproper]
    match hr : s.registry.record? name with
    | none => rfl
    | some r =>
      rw [get?_finished_search ((hproper.get?_declaredRecords name).trans hr),
        funext (fields_ofSurvey hproper)]
      rfl
  case unknown =>
    intro child parent
    rw [count_unknownParent_ofSurvey hnode, Registry.parents, ← hproper.get?_declaredRecords,
      ← hproper.get?_declaredRecords]
    match hr : Entries.get? (declaredRecords s.registry) child with
    | some r =>
      obtain ⟨before, fields, after, stack, -, hsettled⟩ := exists_settled hr
      exact hsettled.count_unknown
    | none => simp [count_search_of_none hr (s := .unknown child parent) rfl]

end Resolution

end CanonicalCwl.Schema
