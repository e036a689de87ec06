import CanonicalCwl.Proofs.Entries
import CanonicalCwl.Schema.Inheritance
import Mathlib.Data.List.Nodup
import Mathlib.Logic.Relation

/-!
# The Search for Inherited Fields

What the depth-first search over the records of a schema leaves behind. Once a record is finished,
everything about it is settled: which of its parents were left out, that the others were finished
before it, and its fields, which come from those of these parents.

- `Inheritance.Settled`: what is settled about a finished record.
- `Inheritance.searched_flatten`: what a part of the search adds.
- `Inheritance.sound_search`, `Inheritance.mem_keys_finished_search`: the whole search finishes all
  declared records, each in such a way.
-/

namespace CanonicalCwl.Schema.Inheritance

open Relation

variable {declared : Entries RecordDef} {stack : List String} {child parent name : String}
  {rest parents : List String} {p : Progress} {r : RecordDef} {fields : List Field}

/-- A declared record gives another one as its parent. -/
def Extends (declared : Entries RecordDef) (child parent : String) : Prop :=
  ∃ r, Entries.get? declared child = some r ∧ parent ∈ r.parents ∧
    (Entries.get? declared parent).isSome

/-! ## What is left out -/

/-- The parents among the given ones that are left out of a record, if the search is inside of the
records on the stack. -/
def skips (declared : Entries RecordDef) (stack : List String) (record : String)
    (parents : List String) : List Skip :=
  parents.filterMap fun parent =>
    if parent ∈ stack then some (.cyclic record parent)
    else if (Entries.get? declared parent).isSome then none
    else some (.unknown record parent)

/-- What was left out of one record. -/
def about (record : String) (skipped : List Skip) : List Skip :=
  skipped.filter (·.record = record)

@[simp] theorem about_append (record : String) (as bs : List Skip) :
    about record (as ++ bs) = about record as ++ about record bs :=
  List.filter_append ..

theorem skips_cons_cyclic (h : parent ∈ stack) :
    skips declared stack child (parent :: rest) =
      .cyclic child parent :: skips declared stack child rest := by
  simp [skips, h]

theorem skips_cons_unknown (h : parent ∉ stack) (hr : Entries.get? declared parent = none) :
    skips declared stack child (parent :: rest) =
      .unknown child parent :: skips declared stack child rest := by
  simp [skips, h, hr]

theorem skips_cons_declared (h : parent ∉ stack) (hr : Entries.get? declared parent = some r) :
    skips declared stack child (parent :: rest) = skips declared stack child rest := by
  simp [skips, h, hr]

/-- The fields of the given parents, one after the other, except for those that the search is
inside of. -/
def inherited (finished : Entries (List Field)) (stack parents : List String) : List Field :=
  parents.flatMap fun parent =>
    if parent ∈ stack then [] else (Entries.get? finished parent).getD []

/-! ## The steps of the search -/

theorem flatten_nil : flatten declared stack child [] p = ([], p) := by
  rw [flatten]

/-- A parent that the search is inside of is left out. -/
theorem flatten_cyclic (h : parent ∈ stack) :
    flatten declared stack child (parent :: rest) p =
      flatten declared stack child rest (p.skip (.cyclic child parent)) := by
  rw [flatten, dif_pos h]

/-- A parent that is no declared record is left out. -/
theorem flatten_unknown (h : parent ∉ stack) (hr : Entries.get? declared parent = none) :
    flatten declared stack child (parent :: rest) p =
      flatten declared stack child rest (p.skip (.unknown child parent)) := by
  rw [flatten, dif_neg h]
  split
  · rfl
  next heq => cases hr.symm.trans heq

/-- The fields of a finished parent are known. -/
theorem flatten_finished (h : parent ∉ stack) (hr : Entries.get? declared parent = some r)
    (hfinished : Entries.get? p.finished parent = some fields) :
    flatten declared stack child (parent :: rest) p =
      (fields ++ (flatten declared stack child rest p).1,
        (flatten declared stack child rest p).2) := by
  rw [flatten, dif_neg h]
  split
  next heq => cases hr.symm.trans heq
  next => rw [hfinished]

/-- Any other parent is finished first. -/
theorem flatten_open (h : parent ∉ stack) (hr : Entries.get? declared parent = some r)
    (hopen : Entries.get? p.finished parent = none) {inside : List Field × Progress}
    (hinside : flatten declared (parent :: stack) parent r.parents p = inside)
    {after : List Field × Progress}
    (hafter : flatten declared stack child rest
      (inside.2.finish parent (r.fields ++ inside.1)) = after) :
    flatten declared stack child (parent :: rest) p =
      (r.fields ++ inside.1 ++ after.1, after.2) := by
  rw [flatten, dif_neg h]
  split
  next heq => cases hr.symm.trans heq
  next r' heq =>
    obtain rfl := Option.some.inj (hr.symm.trans heq)
    rw [hopen]
    simp only [hinside, hafter]

/-! ## What the search keeps to -/

/-- What is settled about a record once it is finished, after the records `before`: the search was
inside of the records on `stack` when it looked at the parents, the record itself among them. -/
structure Settled (declared : Entries RecordDef) (before : Entries (List Field))
    (skipped : List Skip) (name : String) (fields : List Field) (r : RecordDef)
    (stack : List String) : Prop where
  record : Entries.get? declared name = some r
  /-- The search came to the record by way of parents. -/
  reaches : ∀ a ∈ stack, ReflTransGen (Extends declared) a name
  leaves : about name skipped = skips declared stack name r.parents
  inherits : fields = r.fields ++ inherited before stack r.parents
  /-- The parents that were not left out were finished before. -/
  parents : ∀ parent ∈ r.parents, parent ∉ stack → (Entries.get? declared parent).isSome →
    parent ∈ Entries.keys before

/-- Every finished record is settled, and there is one field list for each. -/
structure Sound (declared : Entries RecordDef) (p : Progress) : Prop where
  distinct : Entries.Distinct p.finished
  settled : ∀ before name fields after, p.finished = before ++ (name, fields) :: after →
    ∃ r stack, Settled declared before p.skipped name fields r stack

namespace Sound

/-- What is found about other records leaves the finished ones settled. -/
theorem of_about (h : Sound declared p) {skipped : List Skip}
    (hskipped : ∀ name ∈ Entries.keys p.finished, about name skipped = about name p.skipped) :
    Sound declared { p with skipped } := by
  refine ⟨h.distinct, fun before name fields after heq => ?_⟩
  obtain ⟨r, stack, hsettled⟩ := h.settled before name fields after heq
  have hname : name ∈ Entries.keys p.finished := by
    rw [heq]
    simp [Entries.keys]
  exact ⟨r, stack, { hsettled with leaves := (hskipped name hname).trans hsettled.leaves }⟩

/-- A record is settled when it is finished. -/
theorem finish (h : Sound declared p) (hname : name ∉ Entries.keys p.finished)
    (hsettled : Settled declared p.finished p.skipped name fields r stack) :
    Sound declared (p.finish name fields) := by
  have hfinished : (p.finish name fields).finished = p.finished ++ [(name, fields)] :=
    Entries.insert_of_notMem fields hname
  constructor
  case distinct =>
    rw [hfinished, Entries.Distinct, Entries.keys_append]
    refine List.Nodup.append h.distinct (List.nodup_singleton name) ?_
    simpa [Entries.keys] using hname
  case settled =>
    intro before name' fields' after heq
    rw [hfinished] at heq
    -- The record is the last one, or it was finished before.
    rcases List.eq_nil_or_concat after with rfl | ⟨after, last, rfl⟩
    · obtain ⟨rfl, hlast⟩ := List.append_inj' heq rfl
      obtain ⟨rfl, rfl⟩ : name = name' ∧ fields = fields' := by simpa using hlast
      exact ⟨r, stack, hsettled⟩
    · have heq : p.finished ++ [(name, fields)] =
          (before ++ (name', fields') :: after) ++ [last] := by simpa using heq
      exact h.settled before name' fields' after (List.append_inj' heq rfl).1

/-- Every finished record is declared. -/
theorem isSome_declared (h : Sound declared p) (hname : name ∈ Entries.keys p.finished) :
    (Entries.get? declared name).isSome := by
  obtain ⟨⟨name, fields⟩, hmem, rfl⟩ := List.mem_map.mp hname
  obtain ⟨before, after, heq⟩ := List.append_of_mem hmem
  obtain ⟨r, stack, hsettled⟩ := h.settled before name fields after heq
  rw [hsettled.record]
  rfl

end Sound

/-- The state in which the search looks at some of the parents of a record. -/
structure Ready (declared : Entries RecordDef) (stack : List String) (child : String)
    (parents : List String) (p : Progress) : Prop where
  sound : Sound declared p
  /-- No record that the search is inside of is finished. -/
  apart : ∀ name ∈ stack, name ∉ Entries.keys p.finished
  /-- The search came to the parents by way of the records that it is inside of. -/
  reaches : ∀ a ∈ stack, ∀ parent ∈ parents, (Entries.get? declared parent).isSome →
    TransGen (Extends declared) a parent
  /-- The search is inside of a record of which it leaves out a parent. -/
  inside : skips declared stack child parents ≠ [] → child ∈ stack
  skipped : ∀ s ∈ p.skipped, s.record ∈ Entries.keys p.finished ∨ s.record ∈ stack

/-- What the search over some of the parents of a record adds. -/
structure Searched (declared : Entries RecordDef) (stack : List String) (child : String)
    (parents : List String) (p : Progress) (result : List Field × Progress) : Prop where
  sound : Sound declared result.2
  /-- More records are finished, but none that the search is inside of. -/
  finished : ∃ more, result.2.finished = p.finished ++ more ∧
    ∀ name ∈ stack, name ∉ Entries.keys more
  /-- Of the records that were met before, only this one leaves out more parents. -/
  leaves : ∀ name, name ∈ stack ∨ name ∈ Entries.keys p.finished →
    about name result.2.skipped =
      about name p.skipped ++ if name = child then skips declared stack child parents else []
  skipped : ∀ s ∈ result.2.skipped,
    s.record ∈ Entries.keys result.2.finished ∨ s.record ∈ stack
  fields : result.1 = inherited result.2.finished stack parents
  /-- The parents that were not left out are finished. -/
  parents : ∀ parent ∈ parents, parent ∉ stack → (Entries.get? declared parent).isSome →
    parent ∈ Entries.keys result.2.finished

/-! ## Leaving out a parent -/

section Skip

variable {s : Skip}

/-- After a parent was left out, the search looks at the others. -/
theorem Ready.skip (h : Ready declared stack child (parent :: rest) p) (hrecord : s.record = child)
    (hskips : skips declared stack child (parent :: rest) =
      s :: skips declared stack child rest) :
    Ready declared stack child rest (p.skip s) := by
  have hchild : child ∈ stack := h.inside (by simp [hskips])
  constructor
  case sound =>
    refine h.sound.of_about fun name hname => ?_
    -- The record of the parent is not finished.
    have hne : s.record ≠ name := fun heq =>
      h.apart child hchild (hrecord ▸ heq ▸ hname)
    simp [about, hne]
  case apart => exact h.apart
  case reaches => exact fun a ha parent hp => h.reaches a ha parent (List.mem_cons_of_mem _ hp)
  case inside => exact fun _ => hchild
  case skipped =>
    intro s' hs'
    rcases List.mem_append.mp hs' with hs' | hs'
    · exact h.skipped s' hs'
    · rw [List.mem_singleton.mp hs', hrecord]
      exact .inr hchild

/-- A parent that is left out adds itself to what the others add. -/
theorem Searched.of_skip {result : List Field × Progress}
    (h : Searched declared stack child rest (p.skip s) result) (hrecord : s.record = child)
    (hskips : skips declared stack child (parent :: rest) = s :: skips declared stack child rest)
    (hparent : parent ∉ stack → Entries.get? declared parent = none) :
    Searched declared stack child (parent :: rest) p result := by
  have habsent (hstack : parent ∉ stack) : Entries.get? result.2.finished parent = none := by
    rw [Entries.get?_eq_none_iff]
    intro hmem
    simpa [hparent hstack] using h.sound.isSome_declared hmem
  constructor
  case sound => exact h.sound
  case finished => exact h.finished
  case leaves =>
    intro name hname
    rw [h.leaves name hname, hskips, Progress.skip, about_append, List.append_assoc]
    by_cases heq : name = child
    · simp [about, heq, hrecord]
    · simp [about, heq, hrecord, Ne.symm heq]
  case skipped => exact h.skipped
  case fields =>
    rw [h.fields, inherited, inherited, List.flatMap_cons]
    by_cases hstack : parent ∈ stack
    · simp [hstack]
    · simp [hstack, habsent hstack]
  case parents =>
    intro parent' hmem hstack hdeclared
    rcases List.mem_cons.mp hmem with rfl | hmem
    · simp [hparent hstack] at hdeclared
    · exact h.parents parent' hmem hstack hdeclared

end Skip

/-! ## Taking over the fields of a parent -/

/-- More records are finished, but none that the search is inside of, and nothing more is left out
of the records that were met before. -/
structure Advanced (stack : List String) (p p' : Progress) : Prop where
  finished : ∃ more, p'.finished = p.finished ++ more ∧ ∀ name ∈ stack, name ∉ Entries.keys more
  leaves : ∀ name, name ∈ stack ∨ name ∈ Entries.keys p.finished →
    about name p'.skipped = about name p.skipped

theorem Advanced.refl (stack : List String) (p : Progress) : Advanced stack p p :=
  ⟨⟨[], by simp, by simp [Entries.keys]⟩, fun _ _ => rfl⟩

/-- A parent that is not left out leaves the search ready for the others. -/
theorem Ready.next (h : Ready declared stack child (parent :: rest) p) {p' : Progress}
    (hskips : skips declared stack child (parent :: rest) = skips declared stack child rest)
    (hadvanced : Advanced stack p p') (hsound : Sound declared p')
    (hskipped : ∀ s ∈ p'.skipped, s.record ∈ Entries.keys p'.finished ∨ s.record ∈ stack) :
    Ready declared stack child rest p' := by
  constructor
  case sound => exact hsound
  case apart =>
    intro name hname
    obtain ⟨more, hmore, hnot⟩ := hadvanced.finished
    rw [hmore, Entries.keys_append, List.mem_append, not_or]
    exact ⟨h.apart name hname, hnot name hname⟩
  case reaches => exact fun a ha parent hp => h.reaches a ha parent (List.mem_cons_of_mem _ hp)
  case inside => exact fun hne => h.inside (hskips ▸ hne)
  case skipped => exact hskipped

/-- A finished parent adds its fields to what the others add. -/
theorem Searched.of_next {p' : Progress} {result : List Field × Progress}
    (h : Searched declared stack child rest p' result) (hstack : parent ∉ stack)
    (hskips : skips declared stack child (parent :: rest) = skips declared stack child rest)
    (hadvanced : Advanced stack p p') (hfields : Entries.get? p'.finished parent = some fields) :
    Searched declared stack child (parent :: rest) p (fields ++ result.1, result.2) := by
  obtain ⟨more, hmore, hnot⟩ := hadvanced.finished
  obtain ⟨later, hlater, hnot'⟩ := h.finished
  -- What was finished stays so.
  have hget : Entries.get? result.2.finished parent = some fields := by
    rw [hlater, Entries.get?_append, hfields, Option.some_or]
  constructor
  case sound => exact h.sound
  case finished =>
    refine ⟨more ++ later, by rw [hlater, hmore, List.append_assoc], fun name hname => ?_⟩
    rw [Entries.keys_append, List.mem_append, not_or]
    exact ⟨hnot name hname, hnot' name hname⟩
  case leaves =>
    intro name hname
    have hname' : name ∈ stack ∨ name ∈ Entries.keys p'.finished := by
      rw [hmore, Entries.keys_append, List.mem_append]
      exact hname.imp_right .inl
    rw [h.leaves name hname', hadvanced.leaves name hname, hskips]
  case skipped => exact h.skipped
  case fields =>
    show fields ++ result.1 = _
    rw [h.fields, inherited, inherited, List.flatMap_cons, if_neg hstack, hget, Option.getD_some]
  case parents =>
    intro parent' hmem hstack' hdeclared
    rcases List.mem_cons.mp hmem with rfl | hmem
    · rw [← Entries.isSome_get?_iff, hget]
      rfl
    · exact h.parents parent' hmem hstack' hdeclared

/-- A parent that is not finished is searched first. -/
theorem Ready.open (h : Ready declared stack child (parent :: rest) p) (hstack : parent ∉ stack)
    (hr : Entries.get? declared parent = some r)
    (hopen : parent ∉ Entries.keys p.finished) :
    Ready declared (parent :: stack) parent r.parents p := by
  have hdeclared : (Entries.get? declared parent).isSome := by rw [hr]; rfl
  constructor
  case sound => exact h.sound
  case apart =>
    intro name hname
    rcases List.mem_cons.mp hname with rfl | hname
    · exact hopen
    · exact h.apart name hname
  case reaches =>
    intro a ha parent' hp hdeclared'
    have hlast : Extends declared parent parent' := ⟨r, hr, hp, hdeclared'⟩
    rcases List.mem_cons.mp ha with rfl | ha
    · exact .single hlast
    · exact (h.reaches a ha parent (List.mem_cons_self ..) hdeclared).tail hlast
  case inside => exact fun _ => List.mem_cons_self ..
  case skipped => exact fun s hs => (h.skipped s hs).imp_right (List.mem_cons_of_mem _)

section Open

variable {result : List Field × Progress}
  (h : Searched declared (parent :: stack) parent r.parents p result)
  (hopen : parent ∉ Entries.keys p.finished)

include h hopen

/-- The search inside of a parent does not finish it. -/
theorem Searched.notMem_keys : parent ∉ Entries.keys result.2.finished := by
  obtain ⟨more, hmore, hnot⟩ := h.finished
  rw [hmore, Entries.keys_append, List.mem_append, not_or]
  exact ⟨hopen, hnot parent (List.mem_cons_self ..)⟩

/-- The parent is finished after everything that was met inside of it. -/
theorem Searched.finished_finish (fields : List Field) :
    (result.2.finish parent fields).finished = result.2.finished ++ [(parent, fields)] :=
  Entries.insert_of_notMem fields (h.notMem_keys hopen)

/-- A parent that is searched and finished is one more finished record. -/
theorem Searched.advanced (hstack : parent ∉ stack) (fields : List Field) :
    Advanced stack p (result.2.finish parent fields) := by
  constructor
  case finished =>
    obtain ⟨more, hmore, hnot⟩ := h.finished
    refine ⟨more ++ [(parent, fields)], ?_, fun name hname => ?_⟩
    · rw [h.finished_finish hopen, hmore, List.append_assoc]
    · have hne : name ≠ parent := fun heq => hstack (heq ▸ hname)
      rw [Entries.keys_append, List.mem_append, not_or]
      exact ⟨hnot name (List.mem_cons_of_mem _ hname), by simpa [Entries.keys] using hne⟩
  case leaves =>
    intro name hname
    have hne : name ≠ parent := by
      rintro rfl
      exact hname.elim hstack hopen
    have hleaves := h.leaves name (hname.imp_left (List.mem_cons_of_mem _))
    rwa [if_neg hne, List.append_nil] at hleaves

/-- What the search over its parents gives settles a record. -/
theorem Searched.settled (hready : Ready declared stack child (parent :: rest) p)
    (hstack : parent ∉ stack) (hr : Entries.get? declared parent = some r) :
    Settled declared result.2.finished result.2.skipped parent (r.fields ++ result.1) r
      (parent :: stack) := by
  have hnew : about parent p.skipped = [] := by
    -- Nothing was left out of the record before the search came to it.
    refine List.filter_eq_nil_iff.mpr fun s hs hrecord => ?_
    have hrecord : s.record = parent := by simpa using hrecord
    rcases hready.skipped s hs with hmem | hmem
    · exact hopen (hrecord ▸ hmem)
    · exact hstack (hrecord ▸ hmem)
  constructor
  case record => exact hr
  case reaches =>
    intro a ha
    rcases List.mem_cons.mp ha with rfl | ha
    · exact .refl
    · exact (hready.reaches a ha parent (List.mem_cons_self ..) (by rw [hr]; rfl)).to_reflTransGen
  case leaves =>
    rw [h.leaves parent (.inl (List.mem_cons_self ..)), hnew, if_pos rfl, List.nil_append]
  case inherits => rw [h.fields]
  case parents => exact h.parents

/-- After a parent was searched and finished, the search is ready for the others. -/
theorem Searched.ready (hready : Ready declared stack child (parent :: rest) p)
    (hstack : parent ∉ stack) (hr : Entries.get? declared parent = some r) :
    Ready declared stack child rest (result.2.finish parent (r.fields ++ result.1)) := by
  refine hready.next (skips_cons_declared hstack hr) (h.advanced hopen hstack _)
    (h.sound.finish (h.notMem_keys hopen) (h.settled hopen hready hstack hr)) fun s hs => ?_
  rw [h.finished_finish hopen, Entries.keys_append, List.mem_append]
  -- What was left out of the parent itself now belongs to a finished record.
  rcases h.skipped s hs with hmem | hmem
  · exact .inl (.inl hmem)
  · rcases List.mem_cons.mp hmem with heq | hmem
    · exact .inl (.inr (by simp [Entries.keys, heq]))
    · exact .inr hmem

end Open

/-- What the search over some of the parents of a record adds, one parent after the other. -/
theorem searched_flatten {stack : List String} {child : String} {parents : List String}
    {p : Progress} (h : Ready declared stack child parents p) :
    Searched declared stack child parents p (flatten declared stack child parents p) := by
  match parents with
  | [] =>
    rw [flatten_nil]
    exact ⟨h.sound, ⟨[], by simp, by simp [Entries.keys]⟩, by simp [skips], h.skipped,
      by simp [inherited], by simp⟩
  | parent :: rest =>
    by_cases hstack : parent ∈ stack
    · rw [flatten_cyclic hstack]
      have hskips : skips declared stack child (parent :: rest) =
          .cyclic child parent :: skips declared stack child rest := skips_cons_cyclic hstack
      exact (searched_flatten (h.skip rfl hskips)).of_skip rfl hskips (absurd hstack)
    cases hr : Entries.get? declared parent with
    | none =>
      rw [flatten_unknown hstack hr]
      have hskips : skips declared stack child (parent :: rest) =
          .unknown child parent :: skips declared stack child rest := skips_cons_unknown hstack hr
      exact (searched_flatten (h.skip rfl hskips)).of_skip rfl hskips fun _ => hr
    | some r =>
      have hskips : skips declared stack child (parent :: rest) =
          skips declared stack child rest := skips_cons_declared hstack hr
      cases hfinished : Entries.get? p.finished parent with
      | none =>
        have hopen := Entries.get?_eq_none_iff.mp hfinished
        have hinside := searched_flatten (h.open hstack hr hopen)
        have hrest := searched_flatten (hinside.ready hopen h hstack hr)
        rw [flatten_open hstack hr hfinished rfl rfl]
        refine hrest.of_next hstack hskips (hinside.advanced hopen hstack _) ?_
        rw [hinside.finished_finish hopen, Entries.get?_append,
          Entries.get?_eq_none_iff.mpr (hinside.notMem_keys hopen)]
        simp [Entries.get?_cons]
      | some fields =>
        rw [flatten_finished hstack hr hfinished]
        have hadvanced := Advanced.refl stack p
        have hrest := searched_flatten (h.next hskips hadvanced h.sound h.skipped)
        exact hrest.of_next hstack hskips hadvanced hfinished
termination_by (outside declared stack, parents.length)
decreasing_by
  · exact Prod.Lex.right _ (by simp)
  · exact Prod.Lex.right _ (by simp)
  · exact Prod.Lex.left _ _ (outside_cons_lt hr hstack)
  · exact Prod.Lex.right _ (by simp)
  · exact Prod.Lex.right _ (by simp)

/-! ## The whole search -/

/-- At the start nothing is finished, and no declared record is left out. -/
theorem ready_empty (declared : Entries RecordDef) :
    Ready declared [] "" (Entries.keys declared) .empty := by
  constructor
  case sound => exact ⟨List.nodup_nil, fun before _ _ _ heq => by simp [Progress.empty] at heq⟩
  case apart => simp
  case reaches => simp
  case inside =>
    intro hne
    obtain ⟨s, hs⟩ := List.exists_mem_of_ne_nil _ hne
    obtain ⟨name, hname, hs⟩ := List.mem_filterMap.mp hs
    simp [Entries.isSome_get?_iff, hname] at hs
  case skipped => simp [Progress.empty]

/-- What the search over all declared records adds to nothing. -/
theorem searched_search (declared : Entries RecordDef) :
    Searched declared [] "" (Entries.keys declared) .empty
      (flatten declared [] "" (Entries.keys declared) .empty) :=
  searched_flatten (ready_empty declared)

/-- The whole search settles what it finishes. -/
theorem sound_search (declared : Entries RecordDef) : Sound declared (search declared) :=
  (searched_search declared).sound

/-- The whole search finishes the declared records and no others. -/
theorem mem_keys_finished_search :
    name ∈ Entries.keys (search declared).finished ↔ name ∈ Entries.keys declared := by
  constructor
  · intro hname
    exact Entries.isSome_get?_iff.mp ((sound_search declared).isSome_declared hname)
  · intro hname
    exact (searched_search declared).parents name hname (by simp)
      (Entries.isSome_get?_iff.mpr hname)

theorem get?_finished_search_eq_none_iff :
    Entries.get? (search declared).finished name = none ↔ Entries.get? declared name = none := by
  rw [Entries.get?_eq_none_iff, Entries.get?_eq_none_iff, mem_keys_finished_search]

/-- Only declared records leave out parents. -/
theorem record_mem_of_mem_skipped {s : Skip} (hs : s ∈ (search declared).skipped) :
    s.record ∈ Entries.keys declared := by
  rcases (searched_search declared).skipped s hs with hmem | hmem
  · exact mem_keys_finished_search.mp hmem
  · simp at hmem

end CanonicalCwl.Schema.Inheritance
