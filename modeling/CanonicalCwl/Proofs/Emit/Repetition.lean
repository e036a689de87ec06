import CanonicalCwl.Emit.Proto
import CanonicalCwl.Proofs.Plan.WrapperOrder

/-!
# Repetition in Interface Descriptions

A field of a message can hold a list, but not a list of lists. So an array of arrays is planned as
an array of anything. This looks only one step into the elements of the array: if they are an array
inside of a union that is left of another union, then the plan has an array inside of an array, and
the field is spelled with `repeated` twice.

- `TypeExpr.HidesArray`: the types for which this happens.
- `FieldShape.two_le_arrays_iff`: a shape has an array inside of an array only for these.
- `Proto.Repetition`: how often `repeated` stands before the types of fields.
- `Proto.repetition_recordFields`: the messages of a record repeat so.
-/

namespace CanonicalCwl

/-! ## Arrays inside of arrays -/

namespace TypeExpr

variable {t part : TypeExpr}

/-- The type is an array, and its elements are an array inside of a union of one member. This union
is itself left of a union around it, so that it does not collapse. -/
def HidesArray (t : TypeExpr) : Prop :=
  ∃ items part, t.withoutNull = array items ∧ items.withoutNull = union [array part]

theorem eq_array_of_isArray (h : t.isArray) : ∃ items, t = array items := by
  cases t with
  | array items => exact ⟨items, rfl⟩
  | named name | union members | record name fields | enum name symbols => cases h

/-- Of the types that are no array and no union of several types, only a union of a single array
becomes an array without null. -/
theorem isArray_withoutNull_iff (hmembers : t.severalMembers? = none) (harray : ¬ t.isArray) :
    t.withoutNull.isArray ↔ ∃ part, t = union [array part] := by
  constructor
  · intro h
    match t with
    | union [] => cases h
    | union [t] =>
      cases t with
      | array part => exact ⟨part, rfl⟩
      | named name =>
        cases hnull : (named name).isNull <;> simp [withoutNull, hnull, unionOf, isArray] at h
      | union members | record name fields | enum name symbols => cases h
    | union (t :: u :: rest) => simp [severalMembers?] at hmembers
    | named name | record name fields | enum name symbols => cases h
    | array items => exact absurd rfl harray
  · rintro ⟨part, rfl⟩
    rfl

end TypeExpr

namespace FieldShape

variable {wrapper : String} {t items : TypeExpr}

/-- How many arrays a shape has, each inside of the one before. -/
def arrays : FieldShape → Nat
  | scalar _ | ref _ | union _ => 0
  | array item => item.arrays + 1

@[simp] theorem arrays_ofName (name : String) : (ofName name).arrays = 0 := by
  rw [ofName]
  split_ifs <;> rfl

@[simp] theorem arrays_ofInlineName (name : String) : (ofInlineName name).arrays = 0 := by
  rw [ofInlineName]
  split_ifs <;> rfl

/-- The shape of an array is an array, and no other one is. -/
theorem arrays_pos_iff : 0 < (ofType wrapper t).arrays ↔ t.withoutNull.isArray := by
  fun_cases ofType wrapper t with
  | case1 name h | case2 name fields h | case3 name symbols h => simp [h, TypeExpr.isArray]
  | case4 members h hempty | case5 members h hempty => simp [h, any, arrays, TypeExpr.isArray]
  | case6 items h harray | case7 items h harray hseveral | case8 items h harray hseveral =>
    simp [h, arrays, TypeExpr.isArray]

/-- An array is inside of another one only if the elements hide it. -/
theorem two_le_arrays_iff : 2 ≤ (ofType wrapper t).arrays ↔ t.HidesArray := by
  constructor
  · intro h
    have hshape : t.withoutNull.isArray := arrays_pos_iff.mp (Nat.lt_of_lt_of_le Nat.zero_lt_two h)
    obtain ⟨items, hitems⟩ := TypeExpr.eq_array_of_isArray hshape
    by_cases harray : items.withoutNull.isArray
    · rw [ofType_array_array hitems harray] at h
      exact absurd h (by decide)
    cases hmembers : items.withoutNull.severalMembers? with
    | some members =>
      rw [ofType_array_union hitems hmembers] at h
      exact absurd h (by simp [arrays])
    | none =>
      rw [ofType_array_item hitems hmembers harray] at h
      obtain ⟨part, hpart⟩ := (TypeExpr.isArray_withoutNull_iff hmembers harray).mp
        (arrays_pos_iff.mp (Nat.lt_of_succ_lt_succ h))
      exact ⟨items, part, hitems, hpart⟩
  · rintro ⟨items, part, hitems, hpart⟩
    have hmembers : items.withoutNull.severalMembers? = none := by rw [hpart]; rfl
    have harray : ¬ items.withoutNull.isArray := by rw [hpart]; exact Bool.false_ne_true
    rw [ofType_array_item hitems hmembers harray]
    exact Nat.succ_le_succ (arrays_pos_iff.mpr (by rw [hpart]; rfl))

end FieldShape

/-! ## Spellings -/

namespace Emit.Proto

variable {tables : Tables} {reg : Schema.Registry} {name type : String} {k : Nat}

/-- The name that a shape is spelled by, which is that of a single item if the shape is an array. -/
def itemType (tables : Tables) (reg : Schema.Registry) : FieldShape → String
  | .scalar name | .ref name => nameType tables reg name
  | .union wrapper => wrapper
  | .array item => itemType tables reg item

/-- A type is spelled with `repeated` more than once. -/
def RepeatedTwice (type : String) : Prop := ∃ rest, type = repeated (repeated rest)

theorem repeated_injective : Function.Injective repeated := fun _ _ h =>
  (String.append_right_inj _).mp h

/-- There is one `repeated` for each array. -/
theorem shapeType_eq_iterate (tables : Tables) (reg : Schema.Registry) (shape : FieldShape) :
    shapeType tables reg shape = repeated^[shape.arrays] (itemType tables reg shape) := by
  induction shape with
  | scalar name | ref name | union wrapper => rfl
  | array item ih => rw [shapeType, FieldShape.arrays, Function.iterate_succ_apply', ih, itemType]

/-- Each `repeated` counts, unless the name has more of them. -/
theorem repeatedTwice_iterate_iff (hname : ∀ rest, name ≠ repeated rest) :
    RepeatedTwice (repeated^[k] name) ↔ 2 ≤ k := by
  match k with
  | 0 => exact iff_of_false (fun ⟨rest, h⟩ => hname _ h) (by decide)
  | 1 => exact iff_of_false (fun ⟨rest, h⟩ => hname _ (repeated_injective h)) (by decide)
  | k + 2 =>
    rw [Function.iterate_succ_apply', Function.iterate_succ_apply']
    exact iff_of_true ⟨_, rfl⟩ (Nat.le_add_left 2 k)

/-- Where lists of lists come from in the messages of a record. -/
structure Repetition (tables : Tables) (reg : Schema.Registry) (r : Schema.RecordDef) : Prop where
  /-- A shape has an array inside of another one only if the elements of the array hide it. -/
  shapes : ∀ f ∈ (RecordPlan.ofRecord r).fields, 2 ≤ f.shape.arrays ↔ f.type.HidesArray
  /-- Only such a field is spelled with `repeated` more than once, unless its type is fixed, or the
  name that it is spelled by begins so. -/
  fields : ∀ f ∈ (RecordPlan.ofRecord r).fields, tables.fixedType? r.name f.name = none →
    (∀ rest, itemType tables reg f.shape ≠ repeated rest) →
      (RepeatedTwice (recordField tables reg r.name f).type ↔ f.type.HidesArray)
  /-- No member of a wrapper is, unless its name begins so. -/
  members : ∀ u ∈ (RecordPlan.ofRecord r).unions, ∀ m ∈ u.members,
    (∀ rest, nameType tables reg m.underlying ≠ repeated rest) →
      ¬ RepeatedTwice (memberField tables reg m).type

/-- The lists of lists in the messages of a record are its fields with types that hide an array. -/
theorem repetition_recordFields (tables : Tables) (reg : Schema.Registry) (r : Schema.RecordDef) :
    Repetition tables reg r := by
  have hshapes : ∀ f ∈ (RecordPlan.ofRecord r).fields,
      2 ≤ f.shape.arrays ↔ f.type.HidesArray := by
    intro planned hplanned
    obtain ⟨f, hf, rfl⟩ := List.mem_map.mp hplanned
    exact FieldShape.two_le_arrays_iff
  constructor
  case shapes => exact hshapes
  case fields =>
    intro f hf hfixed hname
    have htype : (recordField tables reg r.name f).type = shapeType tables reg f.shape := by
      rw [recordField, hfixed]
      rfl
    rw [htype, shapeType_eq_iterate, repeatedTwice_iterate_iff hname, hshapes f hf]
  case members =>
    intro u hu m hm hname
    have htype : (memberField tables reg m).type =
        repeated^[if m.isArray then 1 else 0] (nameType tables reg m.underlying) := by
      rw [memberField]
      split <;> rfl
    rw [htype, repeatedTwice_iterate_iff hname]
    split <;> decide

/-- Lists of texts, written as the only member of a union, which is the only member of another one,
and lists of these. -/
def gridType : TypeExpr := .array (.union [.union [.array (.named "string")]])

/-- A record with a field of this type. -/
def gridRecord : Schema.RecordDef := ⟨"Grid", [⟨"rows", gridType, [], none⟩], [], []⟩

/-- The only field of its plan. -/
def gridField : PlannedField := ⟨"rows", gridType, .array (.array (.scalar "string"))⟩

theorem fields_gridRecord : (RecordPlan.ofRecord gridRecord).fields = [gridField] := by
  have hinner : (TypeExpr.union [.array (.named "string")]).withoutNull =
      .array (.named "string") := rfl
  have hshape : FieldShape.ofType (RecordPlan.wrapperName "Grid" "rows") gridType =
      gridField.shape := by
    rw [gridType, FieldShape.ofType_array_item rfl rfl (by decide)]
    refine congrArg FieldShape.array ?_
    -- One union is left of the two, the outer one having a single branch.
    refine (FieldShape.ofType_array_item hinner rfl (by decide)).trans ?_
    exact congrArg FieldShape.array (FieldShape.ofType_named ..)
  exact congrArg (fun shape => [(⟨"rows", gridType, shape⟩ : PlannedField)]) hshape

/-- The shape of the field has an array inside of an array, and the field is spelled so. -/
theorem repeatedTwice_gridRecord :
    gridField ∈ (RecordPlan.ofRecord gridRecord).fields ∧ 2 ≤ gridField.shape.arrays ∧
      Tables.default.fixedType? gridRecord.name gridField.name = none ∧
      (recordField .default [] gridRecord.name gridField).type = "repeated repeated string" ∧
      RepeatedTwice (recordField .default [] gridRecord.name gridField).type := by
  have hfixed : Tables.default.fixedType? gridRecord.name gridField.name = none := by
    decide +kernel
  have htype : (recordField .default [] gridRecord.name gridField).type =
      "repeated repeated string" := by
    rw [recordField, hfixed]
    decide +kernel
  refine ⟨?_, le_rfl, hfixed, htype, "string", htype⟩
  rw [fields_gridRecord]
  exact List.mem_singleton_self gridField

end Emit.Proto

end CanonicalCwl
