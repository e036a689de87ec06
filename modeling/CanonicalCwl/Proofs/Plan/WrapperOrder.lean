import CanonicalCwl.Proofs.Plan.Members

/-!
# Wrappers Before Their Use

A plan names wrappers in two places: in the shapes of fields, and in those members of other wrappers
that are arrays of unions. It lists a wrapper of the name in both cases, built from the union that
is meant, and in the second case it does so before the wrapper with the member.

- `FieldShape.wrapper?`: the wrapper that a shape names.
- `UnionSignature.InOrder`: each wrapper of a list comes after those that its members name.
- `RecordPlan.Needs`: the unions that a plan has wrappers for, with the names of the wrappers.
- `RecordPlan.definesWrappers_ofRecord`: a plan defines the wrappers that it names.
-/

namespace CanonicalCwl

open TypeExpr (choicesAll elementUnionsAll)

/-! ## The shape of a type -/

namespace FieldShape

variable {wrapper name : String} {t items : TypeExpr} {members : List TypeExpr}

/-- The wrapper that a shape names, which may be inside of arrays. -/
def wrapper? : FieldShape → Option String
  | scalar _ | ref _ => none
  | array item => item.wrapper?
  | union wrapper => some wrapper

@[simp] theorem wrapper?_ofName (name : String) : (ofName name).wrapper? = none := by
  rw [ofName]
  split_ifs <;> rfl

@[simp] theorem wrapper?_ofInlineName (name : String) : (ofInlineName name).wrapper? = none := by
  rw [ofInlineName]
  split_ifs <;> rfl

theorem ofType_union (h : t.withoutNull = .union members) (hmembers : ¬ members.isEmpty) :
    ofType wrapper t = union wrapper := by
  rw [ofType]
  split <;> simp_all

/-- An array of arrays is an array of anything. -/
theorem ofType_array_array (h : t.withoutNull = .array items) (harray : items.withoutNull.isArray) :
    ofType wrapper t = array any := by
  rw [ofType]
  split <;> simp_all

/-- The elements of an array have a wrapper of their own if they are a union. -/
theorem ofType_array_union (h : t.withoutNull = .array items)
    (hmembers : items.withoutNull.severalMembers? = some members) :
    ofType wrapper t = array (union (elementName wrapper)) := by
  have harray : ¬ items.withoutNull.isArray := by
    rw [TypeExpr.eq_union_of_severalMembers? hmembers]
    exact Bool.false_ne_true
  rw [ofType]
  split <;> simp_all

/-- Any other array has the shape of its elements inside. -/
theorem ofType_array_item (h : t.withoutNull = .array items)
    (hmembers : items.withoutNull.severalMembers? = none) (harray : ¬ items.withoutNull.isArray) :
    ofType wrapper t = array (ofType wrapper items.withoutNull) := by
  rw [ofType]
  split <;> simp_all

/-- A shape names a wrapper only if the field wraps some types. -/
theorem exists_wraps_of_wrapper? (h : (ofType wrapper t).wrapper? = some name) :
    ∃ types, t.Wraps types := by
  fun_induction ofType wrapper t with
  | case1 t name' hname | case2 t name' fields hname | case3 t name' symbols hname =>
    simp at h
  | case4 => cases h
  | case5 t members hmembers hempty => exact ⟨members, .union hmembers hempty⟩
  | case6 => cases h
  | case7 t items hitems _ hseveral =>
    obtain ⟨members, hmembers⟩ := Option.isSome_iff_exists.mp hseveral
    exact ⟨members, .elements hitems hmembers⟩
  | case8 t items hitems harray hseveral ih =>
    obtain ⟨types, htypes⟩ := ih h
    exact ⟨types, .item hitems (by simpa using hseveral) harray htypes⟩

end FieldShape

/-! ## Order of wrappers -/

namespace UnionSignature

variable {needs : String → List TypeExpr → Prop} {us us' before : List UnionSignature}
  {u : UnionSignature} {wrapper name : String} {t : TypeExpr} {types members : List TypeExpr}

/-- A field that wraps some types is listed with their wrapper, which its shape names. -/
theorem exists_withElements_of_wraps (h : t.Wraps types) (wrapper : String) :
    ∃ name, (FieldShape.ofType wrapper t).wrapper? = some name ∧
      ofType wrapper t = withElements name types := by
  induction h with
  | union h hmembers =>
    exact ⟨wrapper, by rw [FieldShape.ofType_union h hmembers]; rfl, ofType_union h hmembers⟩
  | elements h hmembers =>
    refine ⟨elementName wrapper, ?_, ofType_array_union h hmembers⟩
    rw [FieldShape.ofType_array_union h hmembers]
    rfl
  | item h hmembers harray hitem ih =>
    rw [FieldShape.ofType_array_item h hmembers harray, ofType_array_item h hmembers harray]
    exact ih

/-- The wrapper for a list of types is the last one. -/
theorem build_mem_withElements (wrapper : String) (types : List TypeExpr) :
    build wrapper types ∈ withElements wrapper types :=
  List.mem_append_right _ (List.mem_singleton_self _)

/-- The wrappers for the elements of an array are among the element wrappers. -/
theorem withElements_subset_elements (h : members ∈ elementUnionsAll types) :
    withElements (elementName wrapper) members ⊆ elements wrapper types := by
  intro u hu
  rw [elements_eq_flatMap]
  exact List.mem_flatMap.mpr ⟨members, h, hu⟩

/-- Each wrapper of a list is built from types that a wrapper of its name is needed for, and comes
after the wrappers for the elements of the arrays among them. -/
inductive InOrder (needs : String → List TypeExpr → Prop) : List UnionSignature → Prop
  | nil : InOrder needs []
  | concat {us : List UnionSignature} {name : String} {types : List TypeExpr}
      (h : InOrder needs us) (hneeds : needs name types)
      (hbefore : ∀ members ∈ elementUnionsAll types, build (elementName name) members ∈ us) :
      InOrder needs (us ++ [build name types])

namespace InOrder

theorem append (h : InOrder needs us) (h' : InOrder needs us') : InOrder needs (us ++ us') := by
  induction h' with
  | nil => rwa [List.append_nil]
  | concat h' hneeds hbefore ih =>
    rw [← List.append_assoc]
    exact ih.concat hneeds fun members hmembers =>
      List.mem_append_right us (hbefore members hmembers)

theorem flatMap {α : Type} {l : List α} {f : α → List UnionSignature}
    (h : ∀ a ∈ l, InOrder needs (f a)) : InOrder needs (l.flatMap f) := by
  induction l with
  | nil => exact .nil
  | cons a rest ih =>
    rw [List.flatMap_cons]
    exact (h a (List.mem_cons_self ..)).append (ih fun b hb => h b (List.mem_cons_of_mem a hb))

/-- The wrapper for a list of types comes after the element wrappers. -/
theorem withElements (h : InOrder needs (elements wrapper types)) (hneeds : needs wrapper types) :
    InOrder needs (withElements wrapper types) :=
  h.concat hneeds fun _ hmembers =>
    withElements_subset_elements hmembers (build_mem_withElements ..)

/-- What comes before a wrapper has the wrappers for the elements of arrays. -/
theorem exists_types (h : InOrder needs us) (hfront : before ++ [u] <+: us) :
    ∃ types, needs u.name types ∧ u = build u.name types ∧
      ∀ members ∈ elementUnionsAll types, build (elementName u.name) members ∈ before := by
  induction h with
  | nil => simp at hfront
  | @concat us name types h hneeds hbefore ih =>
    rcases List.prefix_concat_iff.mp hfront with heq | hfront
    · obtain ⟨rfl, hu⟩ := List.append_inj' heq rfl
      obtain rfl := List.singleton_inj.mp hu
      exact ⟨types, hneeds, rfl, hbefore⟩
    · exact ih hfront

end InOrder

section Elements

variable (hstep : ∀ {name : String} {types members : List TypeExpr},
  needs name types → members ∈ elementUnionsAll types → needs (elementName name) members)

include hstep

/-- The element wrappers of a list of types are in order. -/
theorem inOrder_elements
    (h : ∀ members ∈ elementUnionsAll types, needs (elementName wrapper) members) :
    InOrder needs (elements wrapper types) := by
  -- The wrapper comes from a union at the front, from an array at the front, or from the rest.
  fun_induction elements wrapper types with
  | case1 => exact .nil
  | case2 wrapper inner rest ihinner ihrest =>
    refine .append (ihinner fun members hmembers => ?_) (ihrest fun members hmembers => ?_)
    · exact h members (List.mem_append_left _ hmembers)
    · exact h members (List.mem_append_right _ hmembers)
  | case3 wrapper items rest ihmembers ihrest =>
    refine .append ?_ (ihrest fun members hmembers => h members (List.mem_append_right _ hmembers))
    split
    next members hmembers =>
      have hneeds : needs (elementName wrapper) members :=
        h members (List.mem_append_left _ (by simp [TypeExpr.elementUnions, hmembers]))
      exact (ihmembers members hmembers fun inner hinner => hstep hneeds hinner).withElements hneeds
    next => exact .nil
  | case4 wrapper t rest _ _ ihrest =>
    exact ihrest fun members hmembers => h members (List.mem_append_right _ hmembers)

theorem inOrder_withElements (h : needs wrapper types) :
    InOrder needs (withElements wrapper types) :=
  (inOrder_elements hstep fun _ => hstep h).withElements h

end Elements

end UnionSignature

/-! ## Plans -/

namespace RecordPlan

open UnionSignature

variable {plan : RecordPlan} {wrapper : String} {types members : List TypeExpr}

/-- The plan has a wrapper of the name for the types: a field wraps them, or they are the members of
the union that the elements of an array are, where the array is one of the types that another
wrapper of the plan is for. -/
inductive Needs (plan : RecordPlan) : String → List TypeExpr → Prop
  | field {f : PlannedField} {wrapper : String} {types : List TypeExpr} (hf : f ∈ plan.fields)
      (hshape : f.shape.wrapper? = some wrapper) (htypes : f.type.Wraps types) :
      Needs plan wrapper types
  | elements {wrapper : String} {types : List TypeExpr} {t : TypeExpr} {members : List TypeExpr}
      (h : Needs plan wrapper types) (ht : t ∈ choicesAll types)
      (hmembers : t.elementMembers? = some members) : Needs plan (elementName wrapper) members

theorem Needs.of_mem_elementUnionsAll (h : plan.Needs wrapper types)
    (hmembers : members ∈ elementUnionsAll types) : plan.Needs (elementName wrapper) members := by
  obtain ⟨t, ht, hmembers⟩ := TypeExpr.mem_elementUnionsAll_iff.mp hmembers
  exact h.elements ht hmembers

/-- The wrappers of a field come with a need, unless there are none. -/
theorem ofType_eq_nil_or_needs {r : Schema.RecordDef} {f : Field} (hf : f ∈ firstOfEach r.fields) :
    UnionSignature.ofType (wrapperName r.name f.name) f.type = [] ∨
      ∃ name types, (ofRecord r).Needs name types ∧
        UnionSignature.ofType (wrapperName r.name f.name) f.type = withElements name types := by
  refine (ofType_eq_nil_or_exists_wraps ..).imp_right fun ⟨types, htypes⟩ => ?_
  obtain ⟨name, hshape, hlist⟩ := exists_withElements_of_wraps htypes (wrapperName r.name f.name)
  exact ⟨name, types, .field (List.mem_map_of_mem hf) hshape htypes, hlist⟩

/-- The wrappers of a plan are in order. -/
theorem inOrder_unions (r : Schema.RecordDef) : InOrder (ofRecord r).Needs (ofRecord r).unions := by
  refine .flatMap fun f hf => ?_
  rcases ofType_eq_nil_or_needs hf with hnil | ⟨name, types, hneeds, hlist⟩
  · rw [hnil]
    exact .nil
  · rw [hlist]
    exact inOrder_withElements (fun h => h.of_mem_elementUnionsAll) hneeds

/-- The plan of a record lists the wrappers that it has a need for. -/
theorem Needs.withElements_subset {r : Schema.RecordDef} (h : (ofRecord r).Needs wrapper types) :
    withElements wrapper types ⊆ (ofRecord r).unions := by
  induction h with
  | field hplanned hshape htypes =>
    -- All the types that a field wraps are listed with the one wrapper that its shape names.
    obtain ⟨f, hf, rfl⟩ := List.mem_map.mp hplanned
    obtain ⟨name, hname, hlist⟩ :=
      exists_withElements_of_wraps htypes (wrapperName r.name f.name)
    obtain rfl := Option.some.inj (hname.symm.trans hshape)
    exact hlist ▸ (ofType_infix_unions hf).subset
  | elements h ht hmembers ih =>
    have hmem := TypeExpr.mem_elementUnionsAll_iff.mpr ⟨_, ht, hmembers⟩
    exact fun u hu => ih (List.mem_append_left _ (withElements_subset_elements hmem hu))

/-- A plan defines the wrappers that it names. -/
structure DefinesWrappers (plan : RecordPlan) : Prop where
  /-- The wrapper in the shape of a field is built from what the field wraps. -/
  fields : ∀ f ∈ plan.fields, ∀ wrapper, f.shape.wrapper? = some wrapper →
    ∃ types, f.type.Wraps types ∧ build wrapper types ∈ plan.unions
  /-- If a wrapper has a member for an array of a union, then a wrapper that goes by the name of the
  member comes before it, and is built from that union. -/
  members : ∀ before u, before ++ [u] <+: plan.unions →
    ∃ types, plan.Needs u.name types ∧ u = build u.name types ∧
      ∀ t ∈ choicesAll types, ∀ members, t.elementMembers? = some members →
        memberOf u.name t ∈ u.members ∧ build (memberOf u.name t).underlying members ∈ before

/-- The plan of a record defines the wrappers that it names, those for array elements before the
wrappers with members for the arrays. -/
theorem definesWrappers_ofRecord (r : Schema.RecordDef) : DefinesWrappers (ofRecord r) := by
  constructor
  case fields =>
    intro f hf wrapper hwrapper
    obtain ⟨types, htypes⟩ : ∃ types, f.type.Wraps types := by
      obtain ⟨f, hf, rfl⟩ := List.mem_map.mp hf
      exact FieldShape.exists_wraps_of_wrapper? hwrapper
    have hneeds : (ofRecord r).Needs wrapper types := .field hf hwrapper htypes
    exact ⟨types, htypes, hneeds.withElements_subset (build_mem_withElements ..)⟩
  case members =>
    intro before u hfront
    obtain ⟨types, hneeds, hu, hbefore⟩ := (inOrder_unions r).exists_types hfront
    refine ⟨types, hneeds, hu, fun t ht members hmembers => ?_⟩
    have hmember : memberOf u.name t = ⟨elementName u.name, true⟩ :=
      memberOf_of_elementMembers? hmembers
    constructor
    · rw [hu]
      exact mem_members_build_of_isArray ht (by rw [hmember])
    · rw [hmember]
      exact hbefore members (TypeExpr.mem_elementUnionsAll_iff.mpr ⟨t, ht, hmembers⟩)

end RecordPlan

end CanonicalCwl
