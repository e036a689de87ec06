import CanonicalCwl.Proofs.Schema.Inheritance

/-!
# Records That Reach No Cycle

A record from which no cycle is reached has the same fields after every search: no search is ever
inside of one of its parents when it looks at them, so that nothing is cut short.

- `Grounded`: no cycle is reached.
- `Inheritance.Sound.fields_unique`: two searches find the same fields for such a record.
- `Inheritance.get?_finished_search_congr`: without cycles, the search does not depend on the order
  of the records.
-/

namespace CanonicalCwl.Schema

open Relation

/-- No cycle of the relation is reached. -/
def Grounded {α : Type} (rel : α → α → Prop) (a : α) : Prop :=
  ∀ b, ReflTransGen rel a b → ¬ TransGen rel b b

namespace Grounded

variable {α : Type} {rel : α → α → Prop} {a b : α}

/-- What is reached from where no cycle is reached reaches no cycle either. -/
theorem of_reaches (h : Grounded rel a) (hab : ReflTransGen rel a b) : Grounded rel b :=
  fun c hbc => h c (hab.trans hbc)

/-- Nothing leads back to where no cycle is reached. -/
theorem not_back (h : Grounded rel a) (hab : rel a b) : ¬ ReflTransGen rel b a :=
  fun hba => h a .refl (.head' hab hba)

end Grounded

namespace Inheritance

variable {declared declared' : Entries RecordDef} {stack : List String} {name parent : String}
  {p p' : Progress} {r : RecordDef} {before : Entries (List Field)} {skipped : List Skip}
  {fields fields' : List Field}

/-! ## One settled record -/

/-- The search was inside of no parent of a record that reaches no cycle. -/
theorem Settled.notMem_stack (h : Settled declared before skipped name fields r stack)
    (hground : Grounded (Extends declared) name) (hparent : parent ∈ r.parents) :
    parent ∉ stack := by
  intro hstack
  have hextends : Extends declared name parent :=
    ⟨r, h.record, hparent, h.isSome_of_mem_stack hstack⟩
  exact hground.not_back hextends (h.reaches parent hstack)

/-- Such a record has its own fields and those of all its parents. -/
theorem Settled.fields_of_grounded (h : Settled declared before skipped name fields r stack)
    (hground : Grounded (Extends declared) name) :
    fields = r.fields ++
      r.parents.flatMap fun parent => (Entries.get? before parent).getD [] := by
  rw [h.inherits, inherited]
  refine congrArg (r.fields ++ ·) (List.flatMap_congr fun parent hparent => ?_)
  rw [if_neg (h.notMem_stack hground hparent)]

/-! ## Two searches -/

/-- The relation between records is a matter of what is declared under each name. -/
theorem extends_congr (h : ∀ name, Entries.get? declared name = Entries.get? declared' name) :
    Extends declared = Extends declared' := by
  funext child parent
  simp only [Extends, h]

/-- What is no declared record is never finished. -/
theorem Sound.get?_eq_none (h : Sound declared p) {after : Entries (List Field)}
    (heq : p.finished = before ++ after) (hr : Entries.get? declared name = none) :
    Entries.get? before name = none := by
  rw [Entries.get?_eq_none_iff]
  intro hmem
  have hfinished : name ∈ Entries.keys p.finished := by
    rw [heq, Entries.keys_append]
    exact List.mem_append_left _ hmem
  simpa [hr] using h.isSome_declared hfinished

/-- A declared parent of a record that reaches no cycle was finished before it. -/
theorem Settled.exists_parent (h : Settled declared before skipped name fields r stack)
    (hground : Grounded (Extends declared) name) (hparent : parent ∈ r.parents)
    (hdeclared : (Entries.get? declared parent).isSome) :
    ∃ first more last, before = first ++ (parent, more) :: last ∧
      Entries.get? before parent = some more := by
  have hmem := h.parents parent hparent (h.notMem_stack hground hparent) hdeclared
  obtain ⟨more, hmore⟩ := Option.isSome_iff_exists.mp (Entries.isSome_get?_iff.mpr hmem)
  obtain ⟨first, last, heq⟩ := List.append_of_mem (Entries.mem_of_get? hmore)
  exact ⟨first, more, last, heq, hmore⟩

/-- Two searches find the same fields for a record that reaches no cycle. -/
theorem Sound.fields_unique (h : Sound declared p) (h' : Sound declared' p')
    (hdeclared : ∀ name, Entries.get? declared name = Entries.get? declared' name)
    (hground : Grounded (Extends declared) name)
    (hfields : Entries.get? p.finished name = some fields)
    (hfields' : Entries.get? p'.finished name = some fields') : fields = fields' := by
  obtain ⟨before, after, heq⟩ := List.append_of_mem (Entries.mem_of_get? hfields)
  clear hfields
  -- In either search the parents of a record are finished before it; the first one counts down.
  induction hlength : before.length using Nat.strongRecOn
    generalizing name fields fields' before after with
  | ind n ih =>
    obtain ⟨before', after', heq'⟩ := List.append_of_mem (Entries.mem_of_get? hfields')
    obtain ⟨r, stack, hsettled⟩ := h.settled before name fields after heq
    obtain ⟨r', stack', hsettled'⟩ := h'.settled before' name fields' after' heq'
    obtain rfl : r = r' := Option.some.inj
      (hsettled.record.symm.trans ((hdeclared name).trans hsettled'.record))
    have hground' : Grounded (Extends declared') name := extends_congr hdeclared ▸ hground
    rw [hsettled.fields_of_grounded hground, hsettled'.fields_of_grounded hground']
    refine congrArg (r.fields ++ ·) (List.flatMap_congr fun parent hparent => ?_)
    cases hr : Entries.get? declared parent with
    | none => rw [h.get?_eq_none heq hr, h'.get?_eq_none heq' (hdeclared parent ▸ hr)]
    | some q =>
      have hsome : (Entries.get? declared parent).isSome := by rw [hr]; rfl
      obtain ⟨first, more, last, rfl, hmore⟩ := hsettled.exists_parent hground hparent hsome
      obtain ⟨_, more', _, -, hmore'⟩ :=
        hsettled'.exists_parent hground' hparent (hdeclared parent ▸ hsome)
      have hreaches : ReflTransGen (Extends declared) name parent :=
        .single ⟨r, hsettled.record, hparent, hsome⟩
      have hfinished' : Entries.get? p'.finished parent = some more' := by
        rw [heq', Entries.get?_append, hmore', Option.some_or]
      have hsame : more = more' :=
        ih first.length (by simp at hlength; omega) (hground.of_reaches hreaches) hfinished' first
          (last ++ (name, fields) :: after) (by rw [heq]; simp) rfl
      rw [hmore, hmore', hsame]

/-- Where no cycle is reached, the search does not depend on the order of the records. -/
theorem get?_finished_search_congr
    (hdeclared : ∀ name, Entries.get? declared name = Entries.get? declared' name)
    (hground : Grounded (Extends declared) name) :
    Entries.get? (search declared).finished name =
      Entries.get? (search declared').finished name := by
  cases hr : Entries.get? declared name with
  | none =>
    rw [get?_finished_search_eq_none_iff.mpr hr,
      get?_finished_search_eq_none_iff.mpr (hdeclared name ▸ hr)]
  | some r =>
    have hfields := get?_finished_search hr
    have hfields' := get?_finished_search (hdeclared name ▸ hr)
    rw [hfields, hfields', (sound_search declared).fields_unique (sound_search declared')
      hdeclared hground hfields hfields']

end Inheritance

end CanonicalCwl.Schema
