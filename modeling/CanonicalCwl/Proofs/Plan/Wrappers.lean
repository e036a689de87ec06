import CanonicalCwl.Plan.Record
import CanonicalCwl.Proofs.Schema.Lifting

/-!
# What Plans Refer To

The plan of a record names definitions and wrappers. Definitions are named after references in the
types of the fields. Wrappers are those that the plan lists, and each of them is built from types
that stand in the type of a field, after the wrappers for array elements that it needs.

- `TypeExpr.RefersTo`: the definitions that a type refers to.
- `FieldShape.within_ofType`: the shape of a type names what the type refers to and the wrappers
  that it needs.
- `UnionSignature.exists_built_of_mem_ofType`: how the wrappers that a type needs are built.
- `RecordPlan.within_of_mem_fields`, `RecordPlan.within_of_mem_members`: the plan of a record.
-/

namespace CanonicalCwl

namespace TypeExpr

variable {t part : TypeExpr} {n : String}

/-! ## References -/

/-- The local name is that of a reference, a record or an enumeration that stands in the type, which
may be inside of arrays and unions. -/
inductive RefersTo : TypeExpr → String → Prop
  | here {t : TypeExpr} {name : String} (h : t.name? = some name) : RefersTo t (localName name)
  | inside {t part : TypeExpr} {n : String} (hpart : part ∈ t.alternatives) (h : RefersTo part n) :
      RefersTo t n

/-- Only a single member collapses. -/
theorem eq_singleton_or_unionOf (members : List TypeExpr) :
    (∃ t, members = [t]) ∨ unionOf members = union members := by
  rcases members with _ | ⟨t, _ | ⟨u, rest⟩⟩
  · exact .inr rfl
  · exact .inl ⟨t, rfl⟩
  · exact .inr rfl

/-- Without its null members a union refers to no more than before. -/
theorem RefersTo.of_withoutNull (h : t.withoutNull.RefersTo n) : t.RefersTo n := by
  cases t with
  | union members =>
    have hkept : members.filter (!·.isNull) ⊆ members := List.filter_subset_self ..
    rw [withoutNull] at h
    generalize members.filter (!·.isNull) = kept at h hkept
    rcases eq_singleton_or_unionOf kept with ⟨t, rfl⟩ | heq
    · exact .inside (hkept (List.mem_singleton_self t)) h
    · rw [heq] at h
      cases h with
      | here h => cases h
      | inside hpart h => exact .inside (hkept hpart) h
  | named name | array items | record name fields | enum name symbols => exact h

/-- The elements of an optional array refer to no more than the array. -/
theorem RefersTo.of_item {items : TypeExpr} (hitems : t.withoutNull = array items)
    (h : items.withoutNull.RefersTo n) : t.RefersTo n := by
  refine .of_withoutNull (.inside ?_ h.of_withoutNull)
  rw [hitems]
  exact List.mem_singleton_self items

theorem eq_union_of_severalMembers? {members : List TypeExpr}
    (h : t.severalMembers? = some members) : t = union members := by
  cases t with
  | union ts =>
    simp only [severalMembers?, Option.ite_none_right_eq_some, Option.some.injEq] at h
    rw [h.2]
  | named name | array items | record name fields | enum name symbols => cases h

/-- A member is known by a scalar, or by a definition that its type refers to. -/
theorem isScalarName_or_refersTo_underlying (t : TypeExpr) :
    isScalarName t.underlying ∨ t.RefersTo t.underlying := by
  rw [underlying]
  split
  next name hname =>
    split_ifs with hscalar
    · exact .inl hscalar
    · exact .inl (by decide)
    · exact .inr (.here hname)
  next => exact .inl (by decide)

/-- What a lifted type refers to is given by name, or it has none. -/
theorem RefersTo.typeAt_of_lifted (h : (lifted t).RefersTo n) :
    n = localName "" ∨
      ∃ place name, (lifted t).typeAt place = some (named name) ∧ localName name = n := by
  generalize hu : lifted t = u at h
  induction h generalizing t with
  | @here u name h =>
    -- Of a record or an enumeration only one without a name remains, since it is no definition.
    have hnone := definition?_lifted t
    rw [hu] at hnone
    cases u with
    | named name' =>
      cases h
      exact .inr ⟨[], name, rfl, rfl⟩
    | record name' fields | enum name' symbols =>
      cases h
      rw [definition?] at hnone
      split at hnone
      next hname => exact .inl (congrArg localName (String.isEmpty_iff.mp hname))
      next => cases hnone
    | array items | union members => cases h
  | @inside u part n hpart h ih =>
    have hlifted := hpart
    rw [← hu, alternatives_lifted] at hlifted
    obtain ⟨t', -, rfl⟩ := List.mem_map.mp hlifted
    rcases ih rfl with hempty | ⟨place, name, hplace, hname⟩
    · exact .inl hempty
    · obtain ⟨i, hi⟩ := List.getElem?_of_mem hpart
      exact .inr ⟨i :: place, name, by rw [typeAt, hi]; exact hplace, hname⟩

/-- The definitions that some of the types refer to. -/
def ReferredBy (types : List TypeExpr) (n : String) : Prop := ∃ t ∈ types, t.RefersTo n

namespace ReferredBy

variable {types members : List TypeExpr}

theorem cons (h : ReferredBy types n) : ReferredBy (t :: types) n := by
  obtain ⟨u, hu, hn⟩ := h
  exact ⟨u, List.mem_cons_of_mem t hu, hn⟩

theorem of_union (h : ReferredBy members n) : (union members).RefersTo n := by
  obtain ⟨t, ht, hn⟩ := h
  exact .inside ht hn

/-- The elements of an array may be a union. -/
theorem of_severalMembers? {items : TypeExpr}
    (hmembers : items.withoutNull.severalMembers? = some members) (h : ReferredBy members n) :
    (array items).RefersTo n := by
  refine .of_item rfl ?_
  rw [eq_union_of_severalMembers? hmembers]
  exact h.of_union

end ReferredBy

end TypeExpr

/-! ## Wrappers -/

namespace UnionSignature

open TypeExpr (ReferredBy)

variable {definitions definitions' : String → Prop} {us us' : List UnionSignature}
  {name wrapper : String} {types : List TypeExpr} {u : UnionSignature} {m : UnionMember}

/-- A wrapper of a list of wrappers is built from types that refer to certain definitions only,
and comes right after the wrappers for array elements that it needs. -/
structure Built (definitions : String → Prop) (us : List UnionSignature) (u : UnionSignature)
    (types : List TypeExpr) : Prop where
  eq : u = build u.name types
  elements : withElements u.name types <:+: us
  refers : ∀ n, ReferredBy types n → definitions n

theorem Built.mono (h : Built definitions us u types)
    (hdefinitions : ∀ n, definitions n → definitions' n) (hus : us <:+: us') :
    Built definitions' us' u types :=
  ⟨h.eq, h.elements.trans hus, fun n hn => hdefinitions n (h.refers n hn)⟩

/-- If the wrappers for array elements that a wrapper needs are built, then all of them are. -/
theorem exists_built_of_elements (hrefers : ∀ n, ReferredBy types n → definitions n)
    (helements : u ∈ elements name types →
      ∃ inner, Built (ReferredBy types) (elements name types) u inner)
    (h : u ∈ withElements name types) :
    ∃ inner, Built definitions (withElements name types) u inner := by
  rcases List.mem_append.mp h with h | h
  · obtain ⟨inner, hinner⟩ := helements h
    exact ⟨inner, hinner.mono hrefers (List.prefix_append ..).isInfix⟩
  · obtain rfl := List.mem_singleton.mp h
    exact ⟨types, rfl, List.infix_rfl, hrefers⟩

/-- The wrappers for the elements of arrays in a list of types are built from what is in it. -/
theorem exists_built_of_mem_elements (h : u ∈ elements wrapper types) :
    ∃ inner, Built (ReferredBy types) (elements wrapper types) u inner := by
  -- The wrapper comes from a union at the front, from an array at the front, or from the rest.
  fun_induction elements wrapper types with
  | case1 => cases h
  | case2 wrapper inner rest ihinner ihrest =>
    rcases List.mem_append.mp h with h | h
    · obtain ⟨built, hbuilt⟩ := ihinner h
      refine ⟨built, hbuilt.mono (fun n hn => ?_) (List.prefix_append ..).isInfix⟩
      exact ⟨_, List.mem_cons_self .., hn.of_union⟩
    · obtain ⟨built, hbuilt⟩ := ihrest h
      exact ⟨built, hbuilt.mono (fun n => .cons) (List.suffix_append ..).isInfix⟩
  | case3 wrapper items rest ihmembers ihrest =>
    rcases List.mem_append.mp h with h | h
    · split at h
      next members hmembers =>
        have hrefers (n : String) (hn : ReferredBy members n) :
            ReferredBy (.array items :: rest) n :=
          ⟨_, List.mem_cons_self .., hn.of_severalMembers? hmembers⟩
        obtain ⟨built, hbuilt⟩ := exists_built_of_elements hrefers (ihmembers members hmembers) h
        exact ⟨built, hbuilt.mono (fun n => id) (List.prefix_append ..).isInfix⟩
      next => cases h
    · obtain ⟨built, hbuilt⟩ := ihrest h
      exact ⟨built, hbuilt.mono (fun n => .cons) (List.suffix_append ..).isInfix⟩
  | case4 wrapper t rest _ _ ihrest =>
    obtain ⟨built, hbuilt⟩ := ihrest h
    exact ⟨built, hbuilt.mono (fun n => .cons) List.infix_rfl⟩

/-- So are those for the list of types. -/
theorem exists_built_of_mem_withElements (hrefers : ∀ n, ReferredBy types n → definitions n)
    (h : u ∈ withElements name types) :
    ∃ inner, Built definitions (withElements name types) u inner :=
  exists_built_of_elements hrefers exists_built_of_mem_elements h

/-- The wrapper for a list of types is the last one. -/
theorem name_mem_withElements (name : String) (types : List TypeExpr) :
    name ∈ (withElements name types).map (·.name) := by
  simp [withElements, build]

section OfType

variable {t items : TypeExpr} {members : List TypeExpr}

@[simp] theorem ofType_named (wrapper name : String) : ofType wrapper (.named name) = [] := by
  rw [ofType]
  rfl

/-- A union needs its own wrapper. -/
theorem ofType_union (h : t.withoutNull = .union members) (hmembers : ¬ members.isEmpty) :
    ofType wrapper t = withElements wrapper members := by
  rw [ofType]
  split
  next heq =>
    cases h.symm.trans heq
    exact if_neg hmembers
  next heq => cases h.symm.trans heq
  next hunion _ => exact absurd h (hunion members)

/-- An array of a union needs the wrapper for its elements. -/
theorem ofType_array_union (h : t.withoutNull = .array items)
    (hmembers : items.withoutNull.severalMembers? = some members) :
    ofType wrapper t = withElements (elementName wrapper) members := by
  rw [ofType]
  split
  next heq => cases h.symm.trans heq
  next heq =>
    cases h.symm.trans heq
    rw [hmembers]
  next harray => exact absurd h (harray items)

/-- Any other array needs what its elements need. -/
theorem ofType_array_item (h : t.withoutNull = .array items)
    (hmembers : items.withoutNull.severalMembers? = none) (harray : ¬ items.withoutNull.isArray) :
    ofType wrapper t = ofType wrapper items.withoutNull := by
  rw [ofType]
  split
  next heq => cases h.symm.trans heq
  next heq =>
    cases h.symm.trans heq
    rw [hmembers]
    exact if_neg harray
  next harray => exact absurd h (harray items)

/-- The wrappers that a type needs are built from what stands in it. -/
theorem exists_built_of_mem_ofType (h : u ∈ ofType wrapper t) :
    ∃ inner, Built t.RefersTo (ofType wrapper t) u inner := by
  fun_induction ofType wrapper t with
  | case1 t members hmembers hempty => cases h
  | case2 t members hmembers hempty =>
    refine exists_built_of_mem_withElements (fun n hn => .of_withoutNull ?_) h
    rw [hmembers]
    exact hn.of_union
  | case3 t items hitems members hmembers =>
    refine exists_built_of_mem_withElements (fun n hn => .of_withoutNull ?_) h
    rw [hitems]
    exact hn.of_severalMembers? hmembers
  | case4 t items hitems hmembers harray => cases h
  | case5 t items hitems hmembers harray ih =>
    obtain ⟨inner, hinner⟩ := ih h
    exact ⟨inner, hinner.mono (fun n => .of_item hitems) List.infix_rfl⟩
  | case6 => cases h

end OfType

end UnionSignature

/-! ## Members of wrappers -/

namespace UnionMember

open TypeExpr (ReferredBy)

variable {definitions definitions' wrappers wrappers' : String → Prop} {wrapper : String}
  {types : List TypeExpr} {m : UnionMember}

/-- A member stands for a scalar, or for a definition or a wrapper with a property. -/
def Within (definitions wrappers : String → Prop) (m : UnionMember) : Prop :=
  TypeExpr.isScalarName m.underlying ∨ definitions m.underlying ∨ wrappers m.underlying

theorem Within.mono (h : m.Within definitions wrappers)
    (hdefinitions : ∀ n, definitions n → definitions' n)
    (hwrappers : ∀ n, wrappers n → wrappers' n) : m.Within definitions' wrappers' :=
  h.imp_right (Or.imp (hdefinitions _) (hwrappers _))

/-- The single member of a type stands for what the type refers to. -/
theorem within_underlying (t : TypeExpr) (isArray : Bool) :
    Within t.RefersTo wrappers ⟨t.underlying, isArray⟩ :=
  t.isScalarName_or_refersTo_underlying.imp_right .inl

/-- The member of an array stands for what its elements refer to, or for their wrapper. -/
theorem within_arrayMember (wrapper : String) (items : TypeExpr) (rest : List TypeExpr) :
    (UnionSignature.arrayMember wrapper items).Within (TypeExpr.array items).RefersTo
      (· ∈ (UnionSignature.elements wrapper (.array items :: rest)).map (·.name)) := by
  rw [UnionSignature.arrayMember, UnionSignature.elements]
  split_ifs with hseveral
  · obtain ⟨members, hmembers⟩ := Option.isSome_iff_exists.mp hseveral
    right
    right
    split
    next members _ =>
      rw [List.map_append]
      exact List.mem_append_left _
        (UnionSignature.name_mem_withElements (elementName wrapper) members)
    next hnone => cases hmembers.symm.trans hnone
  · exact (within_underlying _ true).mono (fun n => .of_item rfl) fun n => id

/-- Before they are pruned, the members for a list of types stand for what the list refers to, or
for one of the wrappers for array elements. -/
theorem within_of_mem_collect (h : m ∈ UnionSignature.collect wrapper types) :
    m.Within (ReferredBy types) (· ∈ (UnionSignature.elements wrapper types).map (·.name)) := by
  -- The wrappers for array elements are listed along the same recursion.
  fun_induction UnionSignature.collect wrapper types with
  | case1 => cases h
  | case2 inner rest ihinner ihrest =>
    rw [UnionSignature.elements, List.map_append]
    rcases List.mem_append.mp h with h | h
    · refine (ihinner h).mono (fun n hn => ?_) fun n => List.mem_append_left _
      exact ⟨_, List.mem_cons_self .., hn.of_union⟩
    · exact (ihrest h).mono (fun n => .cons) fun n => List.mem_append_right _
  | case3 items rest ih =>
    rcases List.mem_cons.mp h with rfl | h
    · refine (within_arrayMember wrapper items rest).mono (fun n hn => ?_) fun n => id
      exact ⟨_, List.mem_cons_self .., hn⟩
    · rw [UnionSignature.elements, List.map_append]
      exact (ih h).mono (fun n => .cons) fun n => List.mem_append_right _
  | case4 t rest hunion harray hnull ih =>
    rw [UnionSignature.elements.eq_4 _ _ _ hunion harray]
    exact (ih h).mono (fun n => .cons) fun n => id
  | case5 t rest hunion harray hnull ih =>
    rw [UnionSignature.elements.eq_4 _ _ _ hunion harray]
    rcases List.mem_cons.mp h with rfl | h
    · refine (within_underlying t false).mono (fun n hn => ?_) fun n => id
      exact ⟨t, List.mem_cons_self .., hn⟩
    · exact (ih h).mono (fun n => .cons) fun n => id

/-- The members of the wrapper for a list of types stand for what the list refers to, or for one of
the wrappers for array elements. -/
theorem within_of_mem_build (h : m ∈ (UnionSignature.build wrapper types).members) :
    m.Within (ReferredBy types) (· ∈ (UnionSignature.elements wrapper types).map (·.name)) :=
  within_of_mem_collect (List.mem_filter.mp (List.mem_eraseDups.mp h)).1

end UnionMember

/-! ## The shape of a type -/

namespace FieldShape

variable {definitions definitions' wrappers wrappers' : String → Prop} {shape : FieldShape}

/-- What a shape names has a property of definitions, or one of wrappers. -/
def Within (definitions wrappers : String → Prop) : FieldShape → Prop
  | scalar _ => True
  | ref name => definitions name
  | union wrapper => wrappers wrapper
  | array item => Within definitions wrappers item

theorem Within.mono (h : shape.Within definitions wrappers)
    (hdefinitions : ∀ n, definitions n → definitions' n)
    (hwrappers : ∀ n, wrappers n → wrappers' n) : shape.Within definitions' wrappers' := by
  induction shape with
  | scalar name => trivial
  | ref name => exact hdefinitions name h
  | union wrapper => exact hwrappers wrapper h
  | array item ih => exact ih h

@[simp] theorem ofType_named (wrapper name : String) :
    ofType wrapper (.named name) = ofName name := by
  rw [ofType]
  rfl

/-- The shape of a type names what the type refers to, and the wrappers that it needs. -/
theorem within_ofType (wrapper : String) (t : TypeExpr) :
    (ofType wrapper t).Within t.RefersTo
      (· ∈ (UnionSignature.ofType wrapper t).map (·.name)) := by
  fun_induction ofType wrapper t with
  | case1 t name h =>
    rw [ofName]
    split_ifs
    · trivial
    · exact .of_withoutNull (.here (by rw [h]; rfl))
  | case2 t name fields h | case3 t name symbols h =>
    rw [ofInlineName]
    split_ifs
    · trivial
    · exact .of_withoutNull (.here (by rw [h]; rfl))
  | case4 => trivial
  | case5 t members h hmembers =>
    rw [UnionSignature.ofType_union h hmembers]
    exact UnionSignature.name_mem_withElements wrapper members
  | case6 => trivial
  | case7 t items h _ hseveral =>
    obtain ⟨members, hmembers⟩ := Option.isSome_iff_exists.mp hseveral
    rw [UnionSignature.ofType_array_union h hmembers]
    exact UnionSignature.name_mem_withElements (elementName wrapper) members
  | case8 t items h harray hseveral ih =>
    rw [UnionSignature.ofType_array_item h (by simpa using hseveral) harray]
    exact ih.mono (fun n => .of_item h) fun n => id

end FieldShape

/-! ## Plans -/

/-- The definitions that the fields of a record refer to. -/
def Schema.RecordDef.RefersTo (r : Schema.RecordDef) (n : String) : Prop :=
  ∃ f ∈ r.fields, f.type.RefersTo n

namespace RecordPlan

variable {r : Schema.RecordDef} {u : UnionSignature}

theorem firstOfEach_subset (fields : List Field) : firstOfEach fields ⊆ fields := by
  induction fields with
  | nil => exact List.Subset.refl _
  | cons f rest ih =>
    exact List.cons_subset_cons f (List.Subset.trans (List.filter_subset_self ..) ih)

/-- The wrappers of a field come one after the other in the plan. -/
theorem ofType_infix_unions {f : Field} (h : f ∈ firstOfEach r.fields) :
    UnionSignature.ofType (wrapperName r.name f.name) f.type <:+: (ofRecord r).unions := by
  rw [ofRecord, List.flatMap_def]
  exact List.infix_of_mem_flatten (List.mem_map_of_mem h)

/-- The shapes of a plan name what the record refers to, and wrappers of the plan. -/
theorem within_of_mem_fields {f : PlannedField} (h : f ∈ (ofRecord r).fields) :
    f.shape.Within r.RefersTo (· ∈ (ofRecord r).unions.map (·.name)) := by
  obtain ⟨f, hf, rfl⟩ := List.mem_map.mp h
  refine (FieldShape.within_ofType ..).mono (fun n hn => ?_) fun n hn => ?_
  · exact ⟨f, firstOfEach_subset _ hf, hn⟩
  · exact List.map_subset _ (ofType_infix_unions hf).subset hn

/-- The wrappers of a plan are built from what stands in the types of the fields. -/
theorem exists_built_of_mem_unions (h : u ∈ (ofRecord r).unions) :
    ∃ types, UnionSignature.Built r.RefersTo (ofRecord r).unions u types := by
  obtain ⟨f, hf, hu⟩ := List.mem_flatMap.mp h
  obtain ⟨types, htypes⟩ := UnionSignature.exists_built_of_mem_ofType hu
  refine ⟨types, htypes.mono (fun n hn => ?_) (ofType_infix_unions hf)⟩
  exact ⟨f, firstOfEach_subset _ hf, hn⟩

/-- The members of the wrappers of a plan stand for what the record refers to, and for wrappers of
the plan. -/
theorem within_of_mem_members {m : UnionMember} (hu : u ∈ (ofRecord r).unions)
    (hm : m ∈ u.members) : m.Within r.RefersTo (· ∈ (ofRecord r).unions.map (·.name)) := by
  obtain ⟨types, htypes⟩ := exists_built_of_mem_unions hu
  rw [htypes.eq] at hm
  refine (UnionMember.within_of_mem_build hm).mono htypes.refers fun n hn => ?_
  have helements : UnionSignature.elements u.name types ⊆ (ofRecord r).unions :=
    List.Subset.trans (List.subset_append_left ..) htypes.elements.subset
  exact List.map_subset _ helements hn

end RecordPlan

end CanonicalCwl
