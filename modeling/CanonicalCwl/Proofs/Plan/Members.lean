import CanonicalCwl.Proofs.Plan.WrapperNames
import Mathlib.Data.List.Sort

/-!
# Members of Wrappers

The wrapper for a list of types has a member for each name that one of the types goes by. Unions in
the list are taken apart first, and null has no member. The member is an array if some type of the
name is one, and the members stand in the order in which they first occur as such. All of this can
be told from the types that are left once the unions are taken apart, and so can the wrappers for
array elements.

- `TypeExpr.choicesAll`: the types in a list, with the unions taken apart and without null.
- `UnionSignature.collect_eq_map`: the members before pruning.
- `UnionSignature.Exact`: what the members of a wrapper are.
- `UnionSignature.members_build_exact`: the wrapper for a list of types has these members, and it
  does not matter which unions are taken apart beforehand.
-/

namespace CanonicalCwl

/-! ## First occurrences -/

section FirstOccurrences

variable {α : Type} [BEq α] [LawfulBEq α] {p : α → Bool} {l : List α} {a b : α}

/-- What comes first among some elements of a list comes first in the list. -/
theorem idxOf_lt_of_idxOf_filter_lt (hb : p b)
    (h : (l.filter p).idxOf a < (l.filter p).idxOf b) : l.idxOf a < l.idxOf b := by
  induction l with
  | nil => exact h
  | cons c rest ih =>
    by_cases hcb : c = b
    · -- Nothing comes before the head.
      rw [List.filter_cons, if_pos (hcb ▸ hb), hcb, List.idxOf_cons_self] at h
      exact absurd h (Nat.not_lt_zero _)
    by_cases hca : c = a
    · rw [hca, List.idxOf_cons_self, List.idxOf_cons_ne _ (hca ▸ hcb)]
      exact Nat.succ_pos _
    rw [List.idxOf_cons_ne _ hca, List.idxOf_cons_ne _ hcb]
    rw [List.filter_cons] at h
    split at h
    · rw [List.idxOf_cons_ne _ hca, List.idxOf_cons_ne _ hcb] at h
      exact Nat.succ_lt_succ (ih (Nat.lt_of_succ_lt_succ h))
    · exact Nat.succ_lt_succ (ih h)

/-- Without repetitions the elements stand in the order in which they first occur. -/
theorem pairwise_idxOf_eraseDups (l : List α) :
    l.eraseDups.Pairwise fun a b => l.idxOf a < l.idxOf b := by
  match l with
  | [] => exact .nil
  | a :: rest =>
    have hne {b : α} (hb : b ∈ (rest.filter (!· == a)).eraseDups) : a ≠ b := by
      rintro rfl
      simpa using (List.mem_filter.mp (List.mem_eraseDups.mp hb)).2
    rw [List.eraseDups_cons, List.pairwise_cons]
    constructor
    · intro b hb
      rw [List.idxOf_cons_self, List.idxOf_cons_ne _ (hne hb)]
      exact Nat.succ_pos _
    · refine (pairwise_idxOf_eraseDups _).imp_of_mem fun {b c} hb hc hlt => ?_
      rw [List.idxOf_cons_ne _ (hne hb), List.idxOf_cons_ne _ (hne hc)]
      exact Nat.succ_lt_succ (idxOf_lt_of_idxOf_filter_lt (by simpa using (hne hc).symm) hlt)
termination_by l.length
decreasing_by exact Nat.lt_succ_of_le (List.length_filter_le ..)

end FirstOccurrences

/-! ## Unions taken apart -/

namespace TypeExpr

mutual

/-- The types that a type allows, if the type stands in a union: a union its members, null none. -/
def choices : TypeExpr → List TypeExpr
  | union members => choicesAll members
  | t => if t.isNull then [] else [t]

/-- The types in a list, with the unions among them taken apart and without null. -/
def choicesAll : List TypeExpr → List TypeExpr
  | [] => []
  | t :: rest => choices t ++ choicesAll rest

end

theorem choices_eq_singleton {t : TypeExpr} (hunion : ∀ members, t ≠ union members)
    (hnull : ¬ t.isNull) : choices t = [t] := by
  cases t with
  | union members => exact absurd rfl (hunion members)
  | named name => exact if_neg hnull
  | array items | record name fields | enum name symbols => rfl

theorem choices_eq_nil {t : TypeExpr} (hnull : t.isNull) : choices t = [] := by
  cases t with
  | named name => exact if_pos hnull
  | array items | union members | record name fields | enum name symbols => cases hnull

theorem choicesAll_append (types types' : List TypeExpr) :
    choicesAll (types ++ types') = choicesAll types ++ choicesAll types' := by
  induction types with
  | nil => rfl
  | cons t rest ih => rw [List.cons_append, choicesAll, choicesAll, ih, List.append_assoc]

/-- Some unions in a list are taken apart, which may be members of other unions. -/
inductive Splices : List TypeExpr → List TypeExpr → Prop
  | here (before members after : List TypeExpr) :
      Splices (before ++ union members :: after) (before ++ members ++ after)
  | inside (before after : List TypeExpr) {members members' : List TypeExpr}
      (h : Splices members members') :
      Splices (before ++ union members :: after) (before ++ union members' :: after)

/-- It does not matter which unions are taken apart beforehand. -/
theorem Splices.choicesAll_eq {types types' : List TypeExpr} (h : Splices types types') :
    choicesAll types' = choicesAll types := by
  induction h with
  | here before members after =>
    rw [choicesAll_append, choicesAll_append, choicesAll_append, choicesAll, choices,
      List.append_assoc]
  | inside before after h ih =>
    rw [choicesAll_append, choicesAll_append, choicesAll, choicesAll, choices, choices, ih]

/-- The members of the union that the elements of an array are. -/
def elementMembers? : TypeExpr → Option (List TypeExpr)
  | array items => items.withoutNull.severalMembers?
  | _ => none

mutual

theorem elementUnions_eq_filterMap : ∀ t : TypeExpr,
    elementUnions t = (choices t).filterMap elementMembers?
  | union members => elementUnionsAll_eq_filterMap members
  | array items => by
      show (elementMembers? (array items)).toList = [array items].filterMap elementMembers?
      rw [List.filterMap_cons]
      cases elementMembers? (array items) <;> rfl
  | named name => by
      rw [choices]
      · split_ifs <;> rfl
      · exact fun members h => by cases h
  | record name fields | enum name symbols => rfl

/-- The unions for array elements are those of the types that are left. -/
theorem elementUnionsAll_eq_filterMap : ∀ types : List TypeExpr,
    elementUnionsAll types = (choicesAll types).filterMap elementMembers?
  | [] => rfl
  | t :: rest => by
      rw [elementUnionsAll, choicesAll, List.filterMap_append, ← elementUnions_eq_filterMap t,
        elementUnionsAll_eq_filterMap rest]

end

theorem mem_elementUnionsAll_iff {types members : List TypeExpr} :
    members ∈ elementUnionsAll types ↔
      ∃ t ∈ choicesAll types, t.elementMembers? = some members := by
  rw [elementUnionsAll_eq_filterMap, List.mem_filterMap]

end TypeExpr

attribute [ext] UnionMember

namespace UnionSignature

open TypeExpr (choices choicesAll Splices elementUnionsAll)

variable {wrapper : String} {types types' : List TypeExpr} {members members' ms : List UnionMember}
  {m m' : UnionMember} {n : String}

/-! ## Members before pruning -/

/-- The member for a type that is no union. -/
def memberOf (wrapper : String) : TypeExpr → UnionMember
  | .array items => arrayMember wrapper items
  | t => ⟨t.underlying, false⟩

theorem memberOf_of_not_isArray {t : TypeExpr} (h : ¬ t.isArray) :
    memberOf wrapper t = ⟨t.underlying, false⟩ := by
  cases t with
  | array items => exact absurd rfl h
  | named name | union members | record name fields | enum name symbols => rfl

@[simp] theorem isArray_memberOf (wrapper : String) (t : TypeExpr) :
    (memberOf wrapper t).isArray = t.isArray := by
  cases t with
  | array items =>
    rw [memberOf, arrayMember]
    split_ifs <;> rfl
  | named name | union members | record name fields | enum name symbols => rfl

/-- The member for an array of a union goes by the wrapper for the elements. -/
theorem memberOf_of_elementMembers? {t : TypeExpr} {members : List TypeExpr}
    (h : t.elementMembers? = some members) : memberOf wrapper t = ⟨elementName wrapper, true⟩ := by
  cases t with
  | array items =>
    have hseveral : items.withoutNull.severalMembers?.isSome := Option.isSome_of_eq_some h
    rw [memberOf, arrayMember, if_pos hseveral]
  | named name | union members | record name fields | enum name symbols => cases h

/-- There is a member for each type that is left when the unions are taken apart. -/
theorem collect_eq_map (wrapper : String) (types : List TypeExpr) :
    collect wrapper types = (choicesAll types).map (memberOf wrapper) := by
  fun_induction collect wrapper types with
  | case1 => rfl
  | case2 inner rest ihinner ihrest =>
    rw [choicesAll, choices, List.map_append, ihinner, ihrest]
  | case3 items rest ih =>
    rw [ih]
    rfl
  | case4 t rest hunion harray hnull ih =>
    rw [choicesAll, TypeExpr.choices_eq_nil hnull, ih]
    rfl
  | case5 t rest hunion harray hnull ih =>
    rw [choicesAll, TypeExpr.choices_eq_singleton hunion hnull, ih, List.map_append]
    cases t with
    | array items => exact absurd rfl (harray items)
    | named name | union members | record name fields | enum name symbols => rfl

/-! ## Pruning -/

/-- What is left of some members: the arrays, and the others that no array of the name supersedes.
-/
theorem mem_prune_iff : m ∈ prune ms ↔
    m ∈ ms ∧ (m.isArray ∨ ∀ o ∈ ms, o.isArray → o.underlying ≠ m.underlying) := by
  simp only [prune, List.mem_eraseDups, List.mem_filter, Bool.or_eq_true, Bool.not_eq_true',
    List.any_eq_false, Bool.and_eq_true, beq_iff_eq, not_and, ne_eq]

/-- A member that is left is an array if there was one of its name. -/
theorem isArray_iff_of_mem_prune (h : m ∈ prune ms) :
    m.isArray ↔ ∃ o ∈ ms, o.isArray ∧ o.underlying = m.underlying := by
  obtain ⟨hm, hkept⟩ := mem_prune_iff.mp h
  constructor
  · exact fun harray => ⟨m, hm, harray, rfl⟩
  · rintro ⟨o, ho, harray, hname⟩
    exact hkept.resolve_right fun hnone => hnone o ho harray hname

/-- No two of the members that are left go by one name. -/
theorem eq_of_mem_prune (h : m ∈ prune ms) (h' : m' ∈ prune ms)
    (hname : m.underlying = m'.underlying) : m = m' := by
  refine UnionMember.ext hname (Bool.eq_iff_iff.mpr ?_)
  rw [isArray_iff_of_mem_prune h, isArray_iff_of_mem_prune h', hname]

/-- A member of every name is left. -/
theorem mem_names_prune_iff :
    n ∈ (prune ms).map (·.underlying) ↔ ∃ m ∈ ms, m.underlying = n := by
  constructor
  · intro h
    obtain ⟨m, hm, rfl⟩ := List.mem_map.mp h
    exact ⟨m, (mem_prune_iff.mp hm).1, rfl⟩
  · rintro ⟨m, hm, rfl⟩
    -- If the member is dropped, then for an array that goes by its name.
    by_cases hsuperseded : ∃ o ∈ ms, o.isArray ∧ o.underlying = m.underlying
    · obtain ⟨o, ho, harray, hname⟩ := hsuperseded
      exact List.mem_map.mpr ⟨o, mem_prune_iff.mpr ⟨ho, .inl harray⟩, hname⟩
    · refine List.mem_map.mpr ⟨m, mem_prune_iff.mpr ⟨hm, .inr fun o ho harray hname => ?_⟩, rfl⟩
      exact hsuperseded ⟨o, ho, harray, hname⟩

/-- The members that are left stand in the order in which they first occur. -/
theorem pairwise_idxOf_prune (ms : List UnionMember) :
    (prune ms).Pairwise fun m m' => ms.idxOf m < ms.idxOf m' := by
  refine (pairwise_idxOf_eraseDups _).imp_of_mem fun _ hm' hlt => ?_
  exact idxOf_lt_of_idxOf_filter_lt (List.mem_filter.mp (List.mem_eraseDups.mp hm')).2 hlt

/-! ## Members of a wrapper -/

theorem members_build (wrapper : String) (types : List TypeExpr) :
    (build wrapper types).members = prune ((choicesAll types).map (memberOf wrapper)) := by
  rw [build, collect_eq_map]

/-- The member for an array is not pruned. -/
theorem mem_members_build_of_isArray {t : TypeExpr} (ht : t ∈ choicesAll types)
    (harray : (memberOf wrapper t).isArray) :
    memberOf wrapper t ∈ (build wrapper types).members := by
  rw [members_build]
  exact mem_prune_iff.mpr ⟨List.mem_map_of_mem ht, .inl harray⟩

/-- The members of the wrapper for a list of types. -/
structure Exact (wrapper : String) (types : List TypeExpr) (members : List UnionMember) : Prop where
  /-- No two members go by one name. -/
  nodup : (members.map (·.underlying)).Nodup
  /-- There is a member for every name that a type goes by. -/
  names : ∀ n, n ∈ members.map (·.underlying) ↔
    ∃ t ∈ choicesAll types, (memberOf wrapper t).underlying = n
  /-- The member is an array if a type of the name is one. -/
  arrays : ∀ m ∈ members, m.isArray ↔
    ∃ t ∈ choicesAll types, t.isArray ∧ (memberOf wrapper t).underlying = m.underlying
  /-- The members stand in the order in which they first occur among those of the types. -/
  order : members.Pairwise fun m m' =>
    ((choicesAll types).map (memberOf wrapper)).idxOf m <
      ((choicesAll types).map (memberOf wrapper)).idxOf m'

theorem exact_build (wrapper : String) (types : List TypeExpr) :
    Exact wrapper types (build wrapper types).members := by
  rw [members_build]
  have horder := pairwise_idxOf_prune ((choicesAll types).map (memberOf wrapper))
  constructor
  case nodup =>
    refine List.Nodup.map_on (fun m hm m' hm' => eq_of_mem_prune hm hm') ?_
    exact horder.imp fun {m m'} hlt heq => by simp [heq] at hlt
  case names =>
    intro n
    rw [mem_names_prune_iff]
    simp
  case arrays =>
    intro m hm
    rw [isArray_iff_of_mem_prune hm]
    simp
  case order => exact horder

namespace Exact

/-- A member of one list is a member of the other one. -/
theorem subset (h : Exact wrapper types members) (h' : Exact wrapper types members') :
    members ⊆ members' := by
  intro m hm
  obtain ⟨m', hm', hname⟩ := List.mem_map.mp
    ((h'.names _).mpr ((h.names _).mp (List.mem_map_of_mem hm)))
  have heq : m' = m := by
    refine UnionMember.ext hname (Bool.eq_iff_iff.mpr ?_)
    rw [h'.arrays m' hm', h.arrays m hm, hname]
  exact heq ▸ hm'

/-- There is one such list of members. -/
theorem unique (h : Exact wrapper types members) (h' : Exact wrapper types members') :
    members = members' := by
  -- Two arrangements of the same members in the same order are one list.
  have hperm : members.Perm members' :=
    (List.perm_ext_iff_of_nodup h.nodup.of_map h'.nodup.of_map).mpr fun m =>
      ⟨fun hm => h.subset h' hm, fun hm => h'.subset h hm⟩
  exact hperm.eq_of_pairwise (fun m m' _ _ hlt hgt => (Nat.lt_asymm hlt hgt).elim) h.order h'.order

end Exact

/-- The members of the wrapper for a list of types are determined by the types that are left when
the unions in the list are taken apart. If some of them are taken apart beforehand, then neither the
wrapper nor those for array elements change. -/
theorem members_build_exact (wrapper : String) (types : List TypeExpr) :
    (∀ members, Exact wrapper types members ↔ members = (build wrapper types).members) ∧
      ∀ types', Splices types types' →
        withElements wrapper types' = withElements wrapper types := by
  constructor
  · intro members
    constructor
    · exact fun h => h.unique (exact_build wrapper types)
    · rintro rfl
      exact exact_build wrapper types
  · intro types' h
    simp only [withElements, elements_eq_flatMap, build, collect_eq_map,
      TypeExpr.elementUnionsAll_eq_filterMap, h.choicesAll_eq]

/-- Types with unions inside of one another. The inner one gives a type that stands before it again,
as an array. -/
def nestedTypes : List TypeExpr :=
  [.named "File", .union [.named "null", .union [.named "string", .array (.named "File")]],
    .named "string"]

/-- The same types with the inner union taken apart. -/
def splicedTypes : List TypeExpr :=
  [.named "File", .union [.named "null", .named "string", .array (.named "File")],
    .named "string"]

/-- The array supersedes the type that stands before it, and takes its place after the other one. -/
theorem members_build_exact_nestedTypes :
    Exact "StepIn" nestedTypes [⟨"string", false⟩, ⟨"File", true⟩] ∧
      Splices nestedTypes splicedTypes ∧
      withElements "StepIn" splicedTypes = withElements "StepIn" nestedTypes := by
  have hmembers : [⟨"string", false⟩, ⟨"File", true⟩] = (build "StepIn" nestedTypes).members := by
    rw [members_build]
    decide +kernel
  have hsplices : Splices nestedTypes splicedTypes :=
    .inside [.named "File"] [.named "string"] (.here [.named "null"] _ [])
  have hexact := members_build_exact "StepIn" nestedTypes
  exact ⟨(hexact.1 _).mpr hmembers, hsplices, hexact.2 _ hsplices⟩

end UnionSignature

end CanonicalCwl
