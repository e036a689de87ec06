import CanonicalCwl.Proofs.Schema.Grounded

/-!
# Where the Search Starts

The search keeps the fields of a finished record and gives them to every later record that extends
it. A record that was finished inside of a cycle has lost the fields of the parent at which the
cycle was cut, and what was cut depends on the record that the search came from. The search over
all records therefore finds what a search from one record alone finds, unless an earlier record
has led it to a cycle that the record reaches as well.

- `Inheritance.flatten_agree`: two runs of the search that differ only in finished records that
  reach no cycle.
- `Inheritance.get?_finished_search_eq_fieldsFrom`: the fields of a record in the whole search and
  in the search from this record alone.
- `Resolution.fields_eq_fieldsFrom`: the same for what is registered.
-/

namespace CanonicalCwl.Schema

open Relation

namespace Inheritance

variable {declared : Entries RecordDef} {stack : List String} {child parent name start : String}
  {rest parents : List String} {p q : Progress} {r : RecordDef} {fields : List Field}

/-! ## One parent after the other -/

/-- The search looks at the first parent and then at the others. -/
theorem flatten_cons (declared : Entries RecordDef) (stack : List String) (child parent : String)
    (rest : List String) (p : Progress) :
    flatten declared stack child (parent :: rest) p =
      ((flatten declared stack child [parent] p).1 ++
          (flatten declared stack child rest (flatten declared stack child [parent] p).2).1,
        (flatten declared stack child rest (flatten declared stack child [parent] p).2).2) := by
  by_cases hstack : parent ∈ stack
  · rw [flatten_cyclic hstack, flatten_cyclic hstack, flatten_nil, List.nil_append]
  cases hr : Entries.get? declared parent with
  | none => rw [flatten_unknown hstack hr, flatten_unknown hstack hr, flatten_nil, List.nil_append]
  | some r =>
    cases hfinished : Entries.get? p.finished parent with
    | some fields =>
      rw [flatten_finished hstack hr hfinished, flatten_finished hstack hr hfinished, flatten_nil,
        List.append_nil]
    | none =>
      rw [flatten_open hstack hr hfinished rfl rfl, flatten_open hstack hr hfinished rfl rfl,
        flatten_nil, List.append_nil]

/-- The search over further parents goes on where the search over the first ones has ended. -/
theorem flatten_append (declared : Entries RecordDef) (stack : List String) (child : String)
    (parents more : List String) (p : Progress) :
    (flatten declared stack child (parents ++ more) p).2 =
      (flatten declared stack child more (flatten declared stack child parents p).2).2 := by
  induction parents generalizing p with
  | nil => rw [List.nil_append, flatten_nil]
  | cons parent rest ih => rw [List.cons_append, flatten_cons, flatten_cons _ _ _ _ rest, ih]

/-- What is ready for several parents is ready for the first one. -/
theorem Ready.head (h : Ready declared stack child (parent :: rest) p) :
    Ready declared stack child [parent] p := by
  have hskips : skips declared stack child (parent :: rest) =
      skips declared stack child [parent] ++ skips declared stack child rest :=
    List.filterMap_append (l := [parent])
  constructor
  case sound => exact h.sound
  case apart => exact h.apart
  case reaches =>
    intro a ha other hother
    rw [List.mem_singleton.mp hother]
    exact h.reaches a ha parent (List.mem_cons_self ..)
  case inside => exact fun hne => h.inside fun hnil => hne (List.append_eq_nil_iff.mp
    (hskips.symm.trans hnil)).1
  case skipped => exact h.skipped

/-- After the first parent, the search is ready for the others. -/
theorem Ready.tail (h : Ready declared stack child (parent :: rest) p) :
    Ready declared stack child rest (flatten declared stack child [parent] p).2 := by
  by_cases hstack : parent ∈ stack
  · rw [flatten_cyclic hstack, flatten_nil]
    exact h.skip rfl (skips_cons_cyclic hstack)
  cases hr : Entries.get? declared parent with
  | none =>
    rw [flatten_unknown hstack hr, flatten_nil]
    exact h.skip rfl (skips_cons_unknown hstack hr)
  | some r =>
    cases hfinished : Entries.get? p.finished parent with
    | some fields =>
      rw [flatten_finished hstack hr hfinished, flatten_nil]
      exact h.next (skips_cons_declared hstack hr) (.refl stack p) h.sound h.skipped
    | none =>
      have hopen := Entries.get?_eq_none_iff.mp hfinished
      rw [flatten_open hstack hr hfinished rfl flatten_nil]
      exact (searched_flatten (h.open hstack hr hopen)).ready hopen h hstack hr

/-- A declared parent is finished with the fields that the search gives for it. -/
theorem Ready.get?_flatten (h : Ready declared stack child [parent] p) (hstack : parent ∉ stack)
    (hr : Entries.get? declared parent = some r) :
    Entries.get? (flatten declared stack child [parent] p).2.finished parent =
      some (flatten declared stack child [parent] p).1 := by
  have hsearched := searched_flatten h
  have hmem := hsearched.parents parent (List.mem_cons_self ..) hstack (by rw [hr]; rfl)
  obtain ⟨fields, hfields⟩ := Option.isSome_iff_exists.mp (Entries.isSome_get?_iff.mpr hmem)
  rw [hsearched.fields, inherited, List.flatMap_singleton, if_neg hstack, hfields,
    Option.getD_some]

/-! ## What the search comes to -/

/-- What is finished was finished before, or it is reached from one of the parents. -/
theorem reaches_of_mem_keys_flatten {stack : List String} {child : String} {parents : List String}
    {p : Progress}
    (hname : name ∈ Entries.keys (flatten declared stack child parents p).2.finished) :
    name ∈ Entries.keys p.finished ∨
      ∃ parent ∈ parents, (Entries.get? declared parent).isSome ∧
        ReflTransGen (Extends declared) parent name := by
  match parents with
  | [] =>
    rw [flatten_nil] at hname
    exact .inl hname
  | parent :: rest =>
    have hfirst (h : name ∈ Entries.keys (flatten declared stack child [parent] p).2.finished) :
        name ∈ Entries.keys p.finished ∨
          (Entries.get? declared parent).isSome ∧ ReflTransGen (Extends declared) parent name := by
      by_cases hstack : parent ∈ stack
      · rw [flatten_cyclic hstack, flatten_nil] at h
        exact .inl h
      cases hr : Entries.get? declared parent with
      | none =>
        rw [flatten_unknown hstack hr, flatten_nil] at h
        exact .inl h
      | some r =>
        cases hfinished : Entries.get? p.finished parent with
        | some fields =>
          rw [flatten_finished hstack hr hfinished, flatten_nil] at h
          exact .inl h
        | none =>
          rw [flatten_open hstack hr hfinished rfl flatten_nil] at h
          -- It is the parent itself, or it was finished inside of the parent.
          rcases Entries.mem_keys_insert.mp h with rfl | h
          · exact .inr ⟨rfl, .refl⟩
          · refine (reaches_of_mem_keys_flatten h).imp_right ?_
            rintro ⟨other, hother, hsome, hreaches⟩
            exact ⟨rfl, .head ⟨r, hr, hother, hsome⟩ hreaches⟩
    rw [flatten_cons] at hname
    rcases reaches_of_mem_keys_flatten hname with h | ⟨other, hother, hreaches⟩
    · exact (hfirst h).imp_right fun hreaches => ⟨parent, List.mem_cons_self .., hreaches⟩
    · exact .inr ⟨other, List.mem_cons_of_mem _ hother, hreaches⟩
termination_by (outside declared stack, parents.length)
decreasing_by
  · exact Prod.Lex.left _ _ (outside_cons_lt hr hstack)
  · exact Prod.Lex.right _ (by simp)

/-- What is not reached from one of the parents stays as it was. -/
theorem Ready.get?_flatten_of_not_reaches (h : Ready declared stack child parents p)
    (hname : ∀ parent ∈ parents, ¬ ReflTransGen (Extends declared) parent name) :
    Entries.get? (flatten declared stack child parents p).2.finished name =
      Entries.get? p.finished name := by
  obtain ⟨more, hmore, -⟩ := (searched_flatten h).finished
  cases hget : Entries.get? p.finished name with
  | some fields => rw [hmore, Entries.get?_append, hget, Option.some_or]
  | none =>
    rw [Entries.get?_eq_none_iff] at hget ⊢
    intro hmem
    obtain ⟨parent, hparent, -, hreaches⟩ := (reaches_of_mem_keys_flatten hmem).resolve_left hget
    exact hname parent hparent hreaches

/-! ## Two runs of the search -/

/-- Of the records that are reached, the same ones are finished with the same fields; only in
records that reach no cycle the states may differ. -/
def Agree (declared : Entries RecordDef) (start : String) (p q : Progress) : Prop :=
  ∀ name, ReflTransGen (Extends declared) start name →
    Entries.get? p.finished name = Entries.get? q.finished name ∨
      Grounded (Extends declared) name

/-- States that agree do so when the same record is finished with the same fields. -/
theorem Agree.finish (h : Agree declared start p q) (name : String) (fields : List Field) :
    Agree declared start (p.finish name fields) (q.finish name fields) := by
  intro other hother
  refine (h other hother).imp_left fun hget => ?_
  rw [Progress.finish, Progress.finish, Entries.get?_insert, Entries.get?_insert, hget]

/-- The search over a parent that reaches no cycle finds the same from all states. -/
theorem flatten_agree_of_grounded (hp : Ready declared stack child [parent] p)
    (hq : Ready declared stack child [parent] q) (hstack : parent ∉ stack)
    (hr : Entries.get? declared parent = some r) (hground : Grounded (Extends declared) parent)
    (hagree : Agree declared start p q) :
    (flatten declared stack child [parent] p).1 = (flatten declared stack child [parent] q).1 ∧
      Agree declared start (flatten declared stack child [parent] p).2
        (flatten declared stack child [parent] q).2 := by
  constructor
  · exact (searched_flatten hp).sound.fields_unique (searched_flatten hq).sound (fun _ => rfl)
      hground (hp.get?_flatten hstack hr) (hq.get?_flatten hstack hr)
  · intro name hname
    by_cases hreaches : ReflTransGen (Extends declared) parent name
    · exact .inr (hground.of_reaches hreaches)
    · have hnone : ∀ other ∈ [parent], ¬ ReflTransGen (Extends declared) other name := by
        simpa using hreaches
      rw [hp.get?_flatten_of_not_reaches hnone, hq.get?_flatten_of_not_reaches hnone]
      exact hagree name hname

/-- The search finds the same from states that agree, and they agree afterwards. -/
theorem flatten_agree {stack : List String} {child : String} {parents : List String}
    {p q : Progress} (hp : Ready declared stack child parents p)
    (hq : Ready declared stack child parents q)
    (hparents : ∀ parent ∈ parents, (Entries.get? declared parent).isSome →
      ReflTransGen (Extends declared) start parent)
    (hagree : Agree declared start p q) :
    (flatten declared stack child parents p).1 = (flatten declared stack child parents q).1 ∧
      Agree declared start (flatten declared stack child parents p).2
        (flatten declared stack child parents q).2 := by
  match parents with
  | [] =>
    rw [flatten_nil, flatten_nil]
    exact ⟨rfl, hagree⟩
  | parent :: rest =>
    have hfirst : (flatten declared stack child [parent] p).1 =
          (flatten declared stack child [parent] q).1 ∧
        Agree declared start (flatten declared stack child [parent] p).2
          (flatten declared stack child [parent] q).2 := by
      by_cases hstack : parent ∈ stack
      · rw [flatten_cyclic hstack, flatten_cyclic hstack, flatten_nil, flatten_nil]
        exact ⟨rfl, hagree⟩
      cases hr : Entries.get? declared parent with
      | none =>
        rw [flatten_unknown hstack hr, flatten_unknown hstack hr, flatten_nil, flatten_nil]
        exact ⟨rfl, hagree⟩
      | some r =>
        have hstart := hparents parent (List.mem_cons_self ..) (by rw [hr]; rfl)
        by_cases hground : Grounded (Extends declared) parent
        · exact flatten_agree_of_grounded hp.head hq.head hstack hr hground hagree
        -- The parent is finished in both states or in neither of them.
        have hget := (hagree parent hstart).resolve_right hground
        cases hfinished : Entries.get? p.finished parent with
        | some fields =>
          rw [flatten_finished hstack hr hfinished,
            flatten_finished hstack hr (hget.symm.trans hfinished), flatten_nil, flatten_nil]
          exact ⟨rfl, hagree⟩
        | none =>
          have hfinished' := hget.symm.trans hfinished
          obtain ⟨hfields, hinside⟩ := flatten_agree
            (hp.open hstack hr (Entries.get?_eq_none_iff.mp hfinished))
            (hq.open hstack hr (Entries.get?_eq_none_iff.mp hfinished'))
            (fun other hother hsome => hstart.tail ⟨r, hr, hother, hsome⟩) hagree
          rw [flatten_open hstack hr hfinished rfl flatten_nil,
            flatten_open hstack hr hfinished' rfl flatten_nil, hfields]
          exact ⟨rfl, hinside.finish parent _⟩
    obtain ⟨hmore, hafter⟩ := flatten_agree hp.tail hq.tail
      (fun other hother => hparents other (List.mem_cons_of_mem _ hother)) hfirst.2
    rw [flatten_cons _ _ _ _ _ p, flatten_cons _ _ _ _ _ q, hfirst.1, hmore]
    exact ⟨rfl, hafter⟩
termination_by (outside declared stack, parents.length)
decreasing_by
  · exact Prod.Lex.left _ _ (outside_cons_lt hr hstack)
  · exact Prod.Lex.right _ (by simp)

/-! ## The whole search -/

/-- The search over declared records is ready whenever it is inside of none. -/
theorem ready_of_declared (hsound : Sound declared p)
    (hskipped : ∀ s ∈ p.skipped, s.record ∈ Entries.keys p.finished ∨ s.record ∈ [])
    (hparents : ∀ parent ∈ parents, (Entries.get? declared parent).isSome) :
    Ready declared [] child parents p := by
  constructor
  case sound => exact hsound
  case apart => simp
  case reaches => simp
  case inside =>
    intro hne
    obtain ⟨s, hs⟩ := List.exists_mem_of_ne_nil _ hne
    obtain ⟨parent, hparent, hs⟩ := List.mem_filterMap.mp hs
    simp [hparents parent hparent] at hs
  case skipped => exact hskipped

/-- The whole search finds the fields that the search from one record alone finds, if all that
this record shares with earlier ones reaches no cycle. -/
theorem get?_finished_search_eq_fieldsFrom {before after : List String}
    (hkeys : Entries.keys declared = before ++ name :: after)
    (hshared : ∀ shared, ReflTransGen (Extends declared) name shared →
      ∀ earlier ∈ before, ReflTransGen (Extends declared) earlier shared →
        Grounded (Extends declared) shared) :
    Entries.get? (search declared).finished name = some (fieldsFrom declared name) := by
  have hdeclared (other : String) (hother : other ∈ before ++ ([name] ++ after)) :
      (Entries.get? declared other).isSome := by
    rw [Entries.isSome_get?_iff, hkeys]
    exact hother
  have hempty (parents : List String) (hparents : parents ⊆ before ++ ([name] ++ after)) :
      Ready declared [] "" parents .empty :=
    ready_of_declared (ready_empty declared).sound (ready_empty declared).skipped
      fun other hother => hdeclared other (hparents hother)
  have hbefore := searched_flatten (hempty before (by simp))
  have hname : Ready declared [] "" [name] (flatten declared [] "" before .empty).2 :=
    ready_of_declared hbefore.sound hbefore.skipped
      fun other hother => hdeclared other (by simp_all)
  have hsearched := searched_flatten hname
  have hafter : Ready declared [] "" after
      (flatten declared [] "" [name] (flatten declared [] "" before .empty).2).2 :=
    ready_of_declared hsearched.sound hsearched.skipped
      fun other hother => hdeclared other (by simp_all)
  obtain ⟨more, hmore, -⟩ := (searched_flatten hafter).finished
  obtain ⟨r, hr⟩ := Option.isSome_iff_exists.mp (hdeclared name (by simp))
  have hagree : Agree declared name (flatten declared [] "" before .empty).2 .empty := by
    intro shared hreaches
    by_cases hmem : shared ∈ Entries.keys (flatten declared [] "" before .empty).2.finished
    · obtain ⟨earlier, hearlier, -, hreaches'⟩ :=
        (reaches_of_mem_keys_flatten hmem).resolve_left (by simp [Progress.empty, Entries.keys])
      exact .inr (hshared shared hreaches earlier hearlier hreaches')
    · exact .inl (Entries.get?_eq_none_iff.mpr hmem)
  have hsame := (flatten_agree hname (hempty [name] (by simp))
    (fun other hother _ => List.mem_singleton.mp hother ▸ .refl) hagree).1
  rw [search, hkeys, ← List.singleton_append, flatten_append, flatten_append, hmore,
    Entries.get?_append, hname.get?_flatten (by simp) hr, hsame, Option.some_or, fieldsFrom]

end Inheritance

open Inheritance

/-! ## What is registered -/

namespace Registry

variable {reg : Registry} {name other : String}

/-- A record without parents reaches only itself. -/
theorem eq_of_reaches (h : reg.parents name = []) (hreaches : ReflTransGen reg.Extends name other) :
    other = name := by
  rcases hreaches.cases_head with heq | ⟨parent, hextends, -⟩
  · exact heq.symm
  · simpa [h] using hextends.1

theorem grounded_of_parents_eq_nil (h : reg.parents name = []) : Grounded reg.Extends name := by
  intro other hreaches hcycle
  obtain rfl := eq_of_reaches h hreaches
  obtain ⟨parent, hextends, -⟩ := TransGen.head'_iff.mp hcycle
  simpa [h] using hextends.1

end Registry

namespace Resolution

/-- A record is registered with the fields that the search from this record alone finds, if all
that it shares with the records before it reaches no cycle. -/
theorem fields_eq_fieldsFrom {s : Survey} (h : s.registry.Proper) {before after : List String}
    {name : String} (hnames : s.registry.records.map RecordDef.name = before ++ name :: after)
    (hshared : ∀ shared, ReflTransGen s.registry.Extends name shared →
      ∀ earlier ∈ before, ReflTransGen s.registry.Extends earlier shared →
        Grounded s.registry.Extends shared) :
    ∃ r, (ofSurvey s).registry.record? name = some r ∧
      r.fields = fieldsFrom (declaredRecords s.registry) name := by
  rw [← Registry.keys_declaredRecords] at hnames
  rw [← h.extends_declaredRecords] at hshared
  have hfields := get?_finished_search_eq_fieldsFrom hnames hshared
  have hmem : name ∈ Entries.keys (declaredRecords s.registry) := by simp [hnames]
  obtain ⟨r, hr⟩ := Option.isSome_iff_exists.mp (Entries.isSome_get?_iff.mpr hmem)
  rw [record?_ofSurvey h, ← h.get?_declaredRecords, hr, hfields]
  exact ⟨_, rfl, rfl⟩

/-- Two records that extend each other, the first of which extends a third one, too. -/
def cycleNodes : List Value :=
  [.mapping [("type", .string "record"), ("name", .string "Base"),
      ("fields", .mapping [("base", .string "int")])],
    .mapping [("type", .string "record"), ("name", .string "Left"),
      ("extends", .sequence [.string "Base", .string "Right"]),
      ("fields", .mapping [("left", .string "int")])],
    .mapping [("type", .string "record"), ("name", .string "Right"), ("extends", .string "Left"),
      ("fields", .mapping [("right", .string "int")])]]

theorem declaredRecords_cycleNodes :
    declaredRecords (Survey.ofNodes cycleNodes).registry =
      [("Base", ⟨"Base", [⟨"base", .named "int", [], none⟩], [], []⟩),
        ("Left", ⟨"Left", [⟨"left", .named "int", [], none⟩], ["Base", "Right"], []⟩),
        ("Right", ⟨"Right", [⟨"right", .named "int", [], none⟩], ["Left"], []⟩)] := by
  decide +kernel

/-- The search comes to the cycle by way of its first record, so that this record has all its
fields. All that it shares with the record before it is that record. -/
theorem fields_eq_fieldsFrom_cycleNodes :
    (∀ shared, ReflTransGen (Survey.ofNodes cycleNodes).registry.Extends "Left" shared →
      ∀ earlier ∈ ["Base"],
        ReflTransGen (Survey.ofNodes cycleNodes).registry.Extends earlier shared →
          Grounded (Survey.ofNodes cycleNodes).registry.Extends shared) ∧
    ∃ r, (ofSurvey (Survey.ofNodes cycleNodes)).registry.record? "Left" = some r ∧
      r.fields.map (·.name) = ["left", "base", "right"] := by
  have hnames : (Survey.ofNodes cycleNodes).registry.records.map RecordDef.name =
      ["Base"] ++ "Left" :: ["Right"] := by decide +kernel
  have hbase : (Survey.ofNodes cycleNodes).registry.parents "Base" = [] := by decide +kernel
  have hshared : ∀ shared, ReflTransGen (Survey.ofNodes cycleNodes).registry.Extends "Left" shared →
      ∀ earlier ∈ ["Base"],
        ReflTransGen (Survey.ofNodes cycleNodes).registry.Extends earlier shared →
          Grounded (Survey.ofNodes cycleNodes).registry.Extends shared := by
    intro shared _ earlier hearlier hreaches
    obtain rfl := List.mem_singleton.mp hearlier
    rw [Registry.eq_of_reaches hbase hreaches]
    exact Registry.grounded_of_parents_eq_nil hbase
  obtain ⟨r, hr, hfields⟩ :=
    fields_eq_fieldsFrom (Survey.proper_ofNodes cycleNodes) hnames hshared
  refine ⟨hshared, r, hr, ?_⟩
  rw [hfields, declaredRecords_cycleNodes]
  simp [fieldsFrom, flatten, Entries.get?_cons, Entries.insert, Progress.empty, Progress.skip,
    Progress.finish]

/-- The second record of the cycle was finished inside of the first one, where the first one was
left out. It is registered without fields that the search from this record alone finds. -/
theorem fields_ne_fieldsFrom_cycleNodes :
    ∃ r, (ofNodes cycleNodes).registry.record? "Right" = some r ∧
      r.fields.map (·.name) = ["right"] ∧
      (fieldsFrom (declaredRecords (Survey.ofNodes cycleNodes).registry) "Right").map (·.name) =
        ["right", "left", "base"] := by
  have hproper := Survey.proper_ofNodes cycleNodes
  rw [ofNodes, record?_ofSurvey hproper, ← hproper.get?_declaredRecords, declaredRecords_cycleNodes]
  refine ⟨_, rfl, ?_, ?_⟩
  · simp [search, flatten, Entries.get?_cons, Entries.keys, Entries.insert, Progress.empty,
      Progress.skip, Progress.finish]
  · simp [fieldsFrom, flatten, Entries.get?_cons, Entries.insert, Progress.empty, Progress.skip,
      Progress.finish]

end Resolution

end CanonicalCwl.Schema
