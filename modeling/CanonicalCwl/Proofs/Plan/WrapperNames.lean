import CanonicalCwl.Proofs.Plan.Nearest
import CanonicalCwl.Proofs.Plan.Wrappers
import Mathlib.Logic.Function.Iterate

/-!
# Names of Wrappers

The wrapper for a field is named after the record and the field, and the wrapper for the elements of
an array after the wrapper that the array is a member of. So the wrappers of different fields have
different names, but two arrays of unions in one union, with the unions inside of it taken apart,
give two wrappers of one name.

- `UnionSignature.elements_eq_flatMap`: the element wrappers of a list of types.
- `UnionSignature.LoneElements`: no two arrays of unions meet.
- `RecordPlan.nodup_names_unions_iff`: when the wrappers of a record have different names.
-/

namespace CanonicalCwl

/-! ## Names -/

section ElementName

variable {a b : String} {k j : Nat}

theorem isElementName_elementName (name : String) : isElementName (elementName name) := by
  simp [isElementName, elementName]

theorem length_elementName (name : String) : (elementName name).length = name.length + 7 := by
  rw [elementName, String.length_append]
  rfl

theorem length_iterate_elementName (k : Nat) (name : String) :
    (elementName^[k] name).length = name.length + 7 * k := by
  induction k with
  | zero => rfl
  | succ k ih =>
    rw [Function.iterate_succ_apply', length_elementName, ih, Nat.mul_succ, Nat.add_assoc]

theorem elementName_injective : Function.Injective elementName := fun _ _ h =>
  (String.append_left_inj _).mp h

theorem iterate_elementName_append (k : Nat) (a b : String) :
    elementName^[k] (a ++ b) = a ++ elementName^[k] b := by
  induction k with
  | zero => rfl
  | succ k ih =>
    rw [Function.iterate_succ_apply', Function.iterate_succ_apply', ih, elementName, elementName,
      String.append_assoc]

/-- The name that the names of element wrappers go back to can be told from them. -/
theorem eq_of_iterate_elementName (ha : ¬ isElementName a) (hb : ¬ isElementName b)
    (h : elementName^[k] a = elementName^[j] b) : a = b := by
  induction k generalizing j with
  | zero =>
    cases j with
    | zero => exact h
    | succ j =>
      have hname : a = elementName^[j + 1] b := h
      rw [Function.iterate_succ_apply'] at hname
      exact absurd (isElementName_elementName _) (hname ▸ ha)
  | succ k ih =>
    rw [Function.iterate_succ_apply'] at h
    cases j with
    | zero =>
      have hname : elementName (elementName^[k] a) = b := h
      exact absurd (isElementName_elementName _) (hname ▸ hb)
    | succ j =>
      rw [Function.iterate_succ_apply'] at h
      exact ih (elementName_injective h)

end ElementName

/-! ## Unions for elements -/

namespace TypeExpr

mutual

/-- The members of the unions that the elements of arrays are, if the type stands in a union. -/
def elementUnions : TypeExpr → List (List TypeExpr)
  | union members => elementUnionsAll members
  | array items => items.withoutNull.severalMembers?.toList
  | _ => []

/-- The members of the unions that the elements of arrays among the types are. -/
def elementUnionsAll : List TypeExpr → List (List TypeExpr)
  | [] => []
  | t :: rest => elementUnions t ++ elementUnionsAll rest

end

/-- A field of the type gets a wrapper for these types. -/
inductive Wraps : TypeExpr → List TypeExpr → Prop
  | union {t : TypeExpr} {members : List TypeExpr} (h : t.withoutNull = union members)
      (hmembers : ¬ members.isEmpty) : Wraps t members
  | elements {t items : TypeExpr} {members : List TypeExpr} (h : t.withoutNull = array items)
      (hmembers : items.withoutNull.severalMembers? = some members) : Wraps t members
  | item {t items : TypeExpr} {members : List TypeExpr} (h : t.withoutNull = array items)
      (hmembers : items.withoutNull.severalMembers? = none) (harray : ¬ items.withoutNull.isArray)
      (hitem : Wraps items.withoutNull members) : Wraps t members

/-- A field wraps one list of types at most. -/
theorem Wraps.unique {t : TypeExpr} {members members' : List TypeExpr} (h : t.Wraps members)
    (h' : t.Wraps members') : members = members' := by
  induction h with
  | union h hmembers =>
    cases h' with
    | union h' _ => exact union.inj (h.symm.trans h')
    | elements h' _ | item h' _ _ _ => cases h.symm.trans h'
  | elements h hmembers =>
    cases h' with
    | union h' _ => cases h.symm.trans h'
    | elements h' hmembers' =>
      cases h.symm.trans h'
      exact Option.some.inj (hmembers.symm.trans hmembers')
    | item h' hmembers' _ _ =>
      cases h.symm.trans h'
      cases hmembers.symm.trans hmembers'
  | item h hmembers harray hitem ih =>
    cases h' with
    | union h' _ => cases h.symm.trans h'
    | elements h' hmembers' =>
      cases h.symm.trans h'
      cases hmembers.symm.trans hmembers'
    | item h' _ _ hitem' =>
      cases h.symm.trans h'
      exact ih hitem'

end TypeExpr

namespace UnionSignature

open TypeExpr (elementUnions elementUnionsAll Wraps)

variable {wrapper : String} {t : TypeExpr} {types members : List TypeExpr} {n : String}

/-- The element wrappers come from the arrays of unions, one after the other. -/
theorem elements_eq_flatMap (wrapper : String) (types : List TypeExpr) :
    elements wrapper types =
      (elementUnionsAll types).flatMap (withElements (elementName wrapper)) := by
  fun_induction elements wrapper types with
  | case1 => rfl
  | case2 wrapper inner rest ihinner ihrest =>
    rw [elementUnionsAll, elementUnions, List.flatMap_append, ihinner, ihrest]
  | case3 wrapper items rest _ ihrest =>
    rw [elementUnionsAll, elementUnions, List.flatMap_append, ihrest]
    split
    next members hmembers => rw [hmembers]; simp [withElements]
    next hmembers => rw [hmembers]; rfl
  | case4 wrapper t rest hunion harray ihrest =>
    cases t with
    | union members => exact absurd rfl (hunion members)
    | array items => exact absurd rfl (harray items)
    | named name | record name fields | enum name symbols => exact ihrest

/-- If the names of the element wrappers go back to that of the wrapper, then all names do. -/
theorem exists_iterate_of_elements
    (helements : n ∈ (elements wrapper types).map (·.name) → ∃ k, n = elementName^[k + 1] wrapper)
    (h : n ∈ (withElements wrapper types).map (·.name)) : ∃ k, n = elementName^[k] wrapper := by
  rw [withElements, List.map_append] at h
  rcases List.mem_append.mp h with h | h
  · obtain ⟨k, hk⟩ := helements h
    exact ⟨k + 1, hk⟩
  · exact ⟨0, List.mem_singleton.mp h⟩

/-- The names of element wrappers go back to that of the wrapper. -/
theorem exists_iterate_of_mem_elements (h : n ∈ (elements wrapper types).map (·.name)) :
    ∃ k, n = elementName^[k + 1] wrapper := by
  -- The wrapper comes from a union at the front, from an array at the front, or from the rest.
  fun_induction elements wrapper types with
  | case1 => cases h
  | case2 wrapper inner rest ihinner ihrest =>
    rw [List.map_append] at h
    exact (List.mem_append.mp h).elim ihinner ihrest
  | case3 wrapper items rest ihmembers ihrest =>
    rw [List.map_append] at h
    rcases List.mem_append.mp h with h | h
    · split at h
      next members hmembers => exact exists_iterate_of_elements (ihmembers members hmembers) h
      next => cases h
    · exact ihrest h
  | case4 wrapper t rest _ _ ihrest => exact ihrest h

/-- No element wrapper has the name of the wrapper. -/
theorem notMem_names_elements (wrapper : String) (types : List TypeExpr) :
    wrapper ∉ (elements wrapper types).map (·.name) := by
  intro h
  obtain ⟨k, hk⟩ := exists_iterate_of_mem_elements h
  have hlength := length_iterate_elementName (k + 1) wrapper
  rw [← hk] at hlength
  omega

/-- Among the types at most one is an array of a union, and so it is inside of that union. Unions
inside of unions do not count as types. -/
inductive LoneElements : List TypeExpr → Prop
  | none {types : List TypeExpr} (h : elementUnionsAll types = []) : LoneElements types
  | one {types members : List TypeExpr} (h : elementUnionsAll types = [members])
      (hmembers : LoneElements members) : LoneElements types

/-- The wrapper for a list of types does not share its name with the element wrappers. -/
theorem nodup_names_withElements_iff :
    ((withElements wrapper types).map (·.name)).Nodup ↔
      ((elements wrapper types).map (·.name)).Nodup := by
  have hnotMem := notMem_names_elements wrapper types
  have hnames : (withElements wrapper types).map (·.name) =
      (elements wrapper types).map (·.name) ++ [wrapper] := by
    rw [withElements, List.map_append]
    rfl
  rw [hnames, List.nodup_append_comm, List.singleton_append, List.nodup_cons]
  exact and_iff_right hnotMem

/-- A lone array of a union makes all the element wrappers. -/
theorem elements_of_lone (h : elementUnionsAll types = [members]) :
    elements wrapper types = withElements (elementName wrapper) members := by
  rw [elements_eq_flatMap, h, List.flatMap_singleton]

/-- Element wrappers have different names exactly if no two arrays of unions meet. -/
theorem nodup_names_elements_iff :
    ((elements wrapper types).map (·.name)).Nodup ↔ LoneElements types := by
  constructor
  · intro h
    -- The union for the elements of a lone array needs fewer element wrappers.
    induction hlength : (elements wrapper types).length using Nat.strongRecOn
      generalizing wrapper types with
    | ind n ih =>
      match hunions : elementUnionsAll types with
      | [] => exact .none hunions
      | [members] =>
        rw [elements_of_lone hunions, nodup_names_withElements_iff] at h
        rw [elements_of_lone hunions, withElements, List.length_append] at hlength
        exact .one hunions (ih _ (hlength ▸ Nat.lt_succ_self _) h rfl)
      | first :: second :: rest =>
        rw [elements_eq_flatMap, hunions, List.map_flatMap, List.flatMap_cons,
          List.flatMap_cons] at h
        have hfirst := name_mem_withElements (elementName wrapper) first
        have hsecond := name_mem_withElements (elementName wrapper) second
        exact (List.disjoint_of_nodup_append h hfirst (List.mem_append_left _ hsecond)).elim
  · intro h
    induction h generalizing wrapper with
    | none h =>
      rw [elements_eq_flatMap, h]
      exact List.nodup_nil
    | one h hmembers ih =>
      rw [elements_of_lone h, nodup_names_withElements_iff]
      exact ih

/-- A field needs wrappers for the types that it wraps. -/
theorem exists_ofType_eq_of_wraps (h : t.Wraps members) (wrapper : String) :
    ∃ k, ofType wrapper t = withElements (elementName^[k] wrapper) members := by
  induction h with
  | union h hmembers => exact ⟨0, ofType_union h hmembers⟩
  | elements h hmembers => exact ⟨1, ofType_array_union h hmembers⟩
  | item h hmembers harray hitem ih => rwa [ofType_array_item h hmembers harray]

/-- A field that needs wrappers wraps some types. -/
theorem ofType_eq_nil_or_exists_wraps (wrapper : String) (t : TypeExpr) :
    ofType wrapper t = [] ∨ ∃ members, t.Wraps members := by
  fun_induction ofType wrapper t with
  | case1 t members hmembers hempty => exact .inl rfl
  | case2 t members hmembers hempty => exact .inr ⟨members, .union hmembers hempty⟩
  | case3 t items hitems members hmembers => exact .inr ⟨members, .elements hitems hmembers⟩
  | case4 t items hitems hmembers harray => exact .inl rfl
  | case5 t items hitems hmembers harray ih =>
    rcases ih with hnil | ⟨members, h⟩
    · exact .inl hnil
    · exact .inr ⟨members, .item hitems hmembers harray h⟩
  | case6 => exact .inl rfl

/-- The wrappers of a field have different names exactly if no two arrays of unions meet in what it
wraps. -/
theorem nodup_names_ofType_iff :
    ((ofType wrapper t).map (·.name)).Nodup ↔
      ∀ members, t.Wraps members → LoneElements members := by
  have hwraps {members : List TypeExpr} (h : t.Wraps members) :
      ((ofType wrapper t).map (·.name)).Nodup ↔ LoneElements members := by
    obtain ⟨k, hk⟩ := exists_ofType_eq_of_wraps h wrapper
    rw [hk, nodup_names_withElements_iff, nodup_names_elements_iff]
  constructor
  · exact fun hnodup members h => (hwraps h).mp hnodup
  · intro hlone
    rcases ofType_eq_nil_or_exists_wraps wrapper t with hnil | ⟨members, h⟩
    · rw [hnil]
      exact List.nodup_nil
    · exact (hwraps h).mpr (hlone members h)

/-- The names of the wrappers of a field go back to its own wrapper. -/
theorem exists_iterate_of_mem_ofType (h : n ∈ (ofType wrapper t).map (·.name)) :
    ∃ k, n = elementName^[k] wrapper := by
  rcases ofType_eq_nil_or_exists_wraps wrapper t with hnil | ⟨members, hmembers⟩
  · rw [hnil] at h
    cases h
  · obtain ⟨k, hk⟩ := exists_ofType_eq_of_wraps hmembers wrapper
    rw [hk] at h
    obtain ⟨j, rfl⟩ := exists_iterate_of_elements exists_iterate_of_mem_elements h
    exact ⟨j + k, (Function.iterate_add_apply ..).symm⟩

end UnionSignature

namespace RecordPlan

open UnionSignature Identifier

variable {r : Schema.RecordDef}

/-- The wrappers of fields with different names, as they are spelled, have different names. -/
theorem disjoint_names_ofType {f g : Field} {n : String}
    (hf : ¬ isElementName (capitalized f.name)) (hg : ¬ isElementName (capitalized g.name))
    (hne : capitalized f.name ≠ capitalized g.name)
    (hnf : n ∈ (UnionSignature.ofType (wrapperName r.name f.name) f.type).map (·.name)) :
    n ∉ (UnionSignature.ofType (wrapperName r.name g.name) g.type).map (·.name) := by
  intro hng
  obtain ⟨k, hk⟩ := exists_iterate_of_mem_ofType hnf
  obtain ⟨j, hj⟩ := exists_iterate_of_mem_ofType hng
  rw [hk, wrapperName, wrapperName, iterate_elementName_append, iterate_elementName_append] at hj
  exact hne (eq_of_iterate_elementName hf hg ((String.append_right_inj _).mp hj))

/-- If no two fields of a record are spelled alike, and none like an element wrapper, then the
wrappers of the record have different names exactly if no two arrays of unions meet in what a field
wraps. -/
theorem nodup_names_unions_iff
    (hdistinct : ∀ f ∈ r.fields, ∀ g ∈ r.fields,
      capitalized f.name = capitalized g.name → f.name = g.name)
    (helement : ∀ f ∈ r.fields, ¬ isElementName (capitalized f.name)) :
    ((ofRecord r).unions.map (·.name)).Nodup ↔
      ∀ f ∈ (ofRecord r).fields, ∀ members, f.type.Wraps members → LoneElements members := by
  have hfields : (firstOfEach r.fields).Pairwise fun f g =>
      List.Disjoint ((UnionSignature.ofType (wrapperName r.name f.name) f.type).map (·.name))
        ((UnionSignature.ofType (wrapperName r.name g.name) g.type).map (·.name)) := by
    refine (List.pairwise_map.mp (nodup_names_firstOfEach r.fields)).imp_of_mem ?_
    intro f g hf hg hne n
    have hf := firstOfEach_subset _ hf
    have hg := firstOfEach_subset _ hg
    exact disjoint_names_ofType (helement f hf) (helement g hg)
      fun heq => hne (hdistinct f hf g hg heq)
  rw [ofRecord, List.map_flatMap, List.nodup_flatMap, List.forall_mem_map]
  simp only [nodup_names_ofType_iff]
  exact and_iff_left hfields

/-- A record with two fields of unions. Inside of the first one there are two more, the inner one
for the elements of an array in the outer one. -/
def nestedRecord : Schema.RecordDef where
  name := "Step"
  fields := [⟨"in", .union [.named "null", .named "string", .array (.union [.named "string",
      .array (.union [.named "File", .named "Directory"])])], [], none⟩,
    ⟨"out", .array (.union [.named "string", .named "File"]), [], none⟩]
  parents := []
  doc := []

/-- Its four wrappers have different names. -/
theorem nodup_names_unions_nestedRecord :
    (∀ f ∈ nestedRecord.fields, ∀ g ∈ nestedRecord.fields,
      capitalized f.name = capitalized g.name → f.name = g.name) ∧
    (∀ f ∈ nestedRecord.fields, ¬ isElementName (capitalized f.name)) ∧
    ((ofRecord nestedRecord).unions.map (·.name)).Nodup := by
  have hdistinct : ∀ f ∈ nestedRecord.fields, ∀ g ∈ nestedRecord.fields,
      capitalized f.name = capitalized g.name → f.name = g.name := by decide +kernel
  have helement : ∀ f ∈ nestedRecord.fields, ¬ isElementName (capitalized f.name) := by
    decide +kernel
  refine ⟨hdistinct, helement, (nodup_names_unions_iff hdistinct helement).mpr ?_⟩
  intro f hf members hwraps
  obtain ⟨g, hg, rfl⟩ := List.mem_map.mp hf
  have hg := firstOfEach_subset _ hg
  simp only [nestedRecord, List.mem_cons, List.not_mem_nil, or_false] at hg
  rcases hg with rfl | rfl
  · rw [hwraps.unique (.union rfl (by decide))]
    exact .one rfl (.one rfl (.none rfl))
  · rw [hwraps.unique (.elements rfl rfl)]
    exact .none rfl

/-- The members of a union of two scalars. -/
def scalarMembers : List TypeExpr := [.named "string", .named "int"]

/-- A record with a field that gives an array of this union twice. -/
def pairedRecord : Schema.RecordDef where
  name := "Step"
  fields := [⟨"in", .union [.array (.union scalarMembers), .array (.union scalarMembers)], [],
    none⟩]
  parents := []
  doc := []

/-- The wrapper for the elements of the arrays is listed twice. -/
theorem not_nodup_names_unions_pairedRecord :
    (∀ f ∈ pairedRecord.fields, ∀ g ∈ pairedRecord.fields,
      capitalized f.name = capitalized g.name → f.name = g.name) ∧
    (∀ f ∈ pairedRecord.fields, ¬ isElementName (capitalized f.name)) ∧
    (ofRecord pairedRecord).unions.map (·.name) = ["StepInElement", "StepInElement", "StepIn"] ∧
    ¬ ((ofRecord pairedRecord).unions.map (·.name)).Nodup := by
  have hunions : (ofRecord pairedRecord).unions =
      withElements "StepIn" [.array (.union scalarMembers), .array (.union scalarMembers)] := by
    have hwrapper : wrapperName "Step" "in" = "StepIn" := by decide +kernel
    have hfields : firstOfEach pairedRecord.fields = pairedRecord.fields := rfl
    rw [ofRecord, hfields, pairedRecord, List.flatMap_singleton, hwrapper]
    exact ofType_union rfl (by decide)
  have hboth : TypeExpr.elementUnionsAll
      [.array (.union scalarMembers), .array (.union scalarMembers)] =
        [scalarMembers, scalarMembers] := rfl
  have hscalars : elements "StepInElement" scalarMembers = [] := elements_eq_flatMap ..
  have hnames : (ofRecord pairedRecord).unions.map (·.name) =
      ["StepInElement", "StepInElement", "StepIn"] := by
    rw [hunions, withElements, elements_eq_flatMap, hboth]
    simp [elementName, withElements, hscalars, build]
  refine ⟨by decide +kernel, by decide +kernel, hnames, ?_⟩
  rw [hnames]
  decide

end RecordPlan

end CanonicalCwl
