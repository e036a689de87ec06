import CanonicalCwl.Proofs.Plan.Members
import CanonicalCwl.Proofs.Plan.WrapperOrder

/-!
# Optional Types in Plans

An optional type is the union of null and a type. A plan leaves null out of a union, and a union
that has one member left is planned as this member. This is done to the outermost union only: a type
that is itself a union of one member besides null is planned as this member where it stands alone,
but gets a wrapper of its own where it is optional.

- `TypeExpr.StaysUnderNull`: the types that the outermost union does not matter to.
- `RecordPlan.PlannedAlike`: two types for a field, of which the same is planned.
- `RecordPlan.plannedAlike_optional_iff`: an optional type is planned as the type itself for exactly
  these types.
-/

namespace CanonicalCwl

variable {wrapper wrapper' : String} {t t' : TypeExpr} {types types' : List TypeExpr}

/-! ## Null left out -/

namespace TypeExpr

/-- The type is not null, and leaving null out of it leaves the type itself or some union. -/
structure StaysUnderNull (t : TypeExpr) : Prop where
  notNull : ¬ t.isNull
  stays : t.withoutNull = t ∨ ∃ first more, t.withoutNull = union (first :: more)

/-- Null is left out of an optional type once. -/
theorem withoutNull_optional (h : ¬ t.isNull) : t.optional.withoutNull = t := by
  rw [optional, withoutNull, List.filter_cons_of_neg (by decide),
    List.filter_cons_of_pos (by simpa using h), List.filter_nil, unionOf]

theorem choicesAll_filter_isNull (types : List TypeExpr) :
    choicesAll (types.filter (!·.isNull)) = choicesAll types := by
  induction types with
  | nil => rfl
  | cons t rest ih =>
    rw [choicesAll, ← ih]
    by_cases hnull : t.isNull
    · rw [List.filter_cons_of_neg (by simpa using hnull), choices_eq_nil hnull, List.nil_append]
    · rw [List.filter_cons_of_pos (by simpa using hnull), choicesAll]

/-- Null is none of the types that a union allows. -/
theorem choices_withoutNull (t : TypeExpr) : choices t.withoutNull = choices t := by
  cases t with
  | union members =>
    have hkept : choices (unionOf (members.filter (!·.isNull))) =
        choicesAll (members.filter (!·.isNull)) := by
      rcases eq_singleton_or_unionOf (members.filter (!·.isNull)) with ⟨t, ht⟩ | hunion
      · rw [ht, unionOf, choicesAll, choicesAll, List.append_nil]
      · rw [hunion, choices]
    rw [withoutNull, hkept, choicesAll_filter_isNull, choices]
  | named name | array items | record name fields | enum name symbols => rfl

end TypeExpr

/-! ## Plans of types -/

namespace FieldShape

/-- The place of a type is that of what it is without null. -/
theorem ofType_congr (h : t.withoutNull = t'.withoutNull) :
    ofType wrapper t = ofType wrapper t' := by
  rw [ofType, ofType]
  generalize t.withoutNull = u at h
  rw [h]

/-- Where nothing is left without null, anything may land. -/
theorem ofType_eq_any (h : t.withoutNull = .union []) : ofType wrapper t = any := by
  rw [ofType]
  split <;> simp_all

/-- What lands in a wrapper is a union without null. -/
theorem exists_withoutNull_of_ofType (h : ofType wrapper t = union wrapper') :
    ∃ first more, t.withoutNull = .union (first :: more) := by
  rw [ofType] at h
  split at h
  case h_1 | h_2 | h_3 => exact absurd (congrArg wrapper? h) (by simp [wrapper?])
  case h_4 members hmembers =>
    cases members with
    | nil => cases h
    | cons first more => exact ⟨first, more, hmembers⟩
  case h_5 => split_ifs at h

end FieldShape

namespace UnionSignature

/-- A type needs the wrappers for what it is without null. -/
theorem ofType_congr (h : t.withoutNull = t'.withoutNull) :
    ofType wrapper t = ofType wrapper t' := by
  rw [ofType, ofType]
  generalize t.withoutNull = u at h
  rw [h]

/-- The wrappers for a list of types are those for the types that are left in it. -/
theorem withElements_congr (h : TypeExpr.choicesAll types = TypeExpr.choicesAll types') :
    withElements wrapper types = withElements wrapper types' := by
  simp only [withElements, elements_eq_flatMap, build, collect_eq_map,
    TypeExpr.elementUnionsAll_eq_filterMap, h]

end UnionSignature

/-! ## Plans of optional types -/

namespace RecordPlan

variable {record field : String}

/-- A field of the record lands in the same place and needs the same wrappers for either type. -/
structure PlannedAlike (record field : String) (t t' : TypeExpr) : Prop where
  shape : FieldShape.ofType (wrapperName record field) t =
    FieldShape.ofType (wrapperName record field) t'
  unions : UnionSignature.ofType (wrapperName record field) t =
    UnionSignature.ofType (wrapperName record field) t'

theorem plannedAlike_of_withoutNull (h : t.withoutNull = t'.withoutNull) :
    PlannedAlike record field t t' :=
  ⟨FieldShape.ofType_congr h, UnionSignature.ofType_congr h⟩

/-- Null lands in another place than optional null. -/
theorem not_plannedAlike_of_isNull (h : t.isNull) : ¬ PlannedAlike record field t.optional t := by
  cases t with
  | named name =>
    obtain rfl : name = "null" := by simpa [TypeExpr.isNull] using h
    intro halike
    have hshape := halike.shape
    rw [FieldShape.ofType_eq_any rfl, FieldShape.ofType_named] at hshape
    exact absurd hshape (by decide +kernel)
  | array items | union members | record name fields | enum name symbols => cases h

/-- An optional type is planned as the type itself exactly if the type is not null and leaving null
out of it leaves the type or some union. -/
theorem plannedAlike_optional_iff (record field : String) (t : TypeExpr) :
    PlannedAlike record field t.optional t ↔ t.StaysUnderNull := by
  constructor
  · intro h
    have hnull : ¬ t.isNull := fun hnull => not_plannedAlike_of_isNull hnull h
    refine ⟨hnull, ?_⟩
    cases t with
    | union members =>
      by_cases hempty : members.isEmpty
      · obtain rfl := List.isEmpty_iff.mp hempty
        exact .inl rfl
      · -- The optional type has a wrapper, and so the type alone needs one, too.
        have hwrapper : FieldShape.ofType (wrapperName record field) (.optional (.union members)) =
            .union (wrapperName record field) :=
          FieldShape.ofType_union (TypeExpr.withoutNull_optional hnull) hempty
        exact .inr (FieldShape.exists_withoutNull_of_ofType (h.shape.symm.trans hwrapper))
    | named name | array items | record name fields | enum name symbols => exact .inl rfl
  · rintro ⟨hnull, hstays⟩
    have hoptional := TypeExpr.withoutNull_optional hnull
    rcases hstays with hself | ⟨first, more, hunion⟩
    · exact plannedAlike_of_withoutNull (hoptional.trans hself.symm)
    cases t with
    | union members =>
      have hmembers : ¬ members.isEmpty := by
        rintro hempty
        obtain rfl := List.isEmpty_iff.mp hempty
        cases hunion
      have hchoices : TypeExpr.choicesAll members = TypeExpr.choicesAll (first :: more) := by
        have h := TypeExpr.choices_withoutNull (.union members)
        rw [hunion, TypeExpr.choices, TypeExpr.choices] at h
        exact h.symm
      constructor
      case shape =>
        rw [FieldShape.ofType_union hoptional hmembers, FieldShape.ofType_union hunion (by simp)]
      case unions =>
        rw [UnionSignature.ofType_union hoptional hmembers,
          UnionSignature.ofType_union hunion (by simp)]
        exact UnionSignature.withElements_congr hchoices
    | named name | array items | record name fields | enum name symbols => cases hunion

/-- An optional text is planned as a text, but the optional type of it gets a wrapper. -/
theorem not_plannedAlike_optional_optional :
    FieldShape.ofType (wrapperName "Step" "label") (.optional (.named "string")) =
        .scalar "string" ∧
      FieldShape.ofType (wrapperName "Step" "label") (.optional (.optional (.named "string"))) =
        .union "StepLabel" ∧
      ¬ PlannedAlike "Step" "label" (.optional (.optional (.named "string")))
        (.optional (.named "string")) := by
  have htext : FieldShape.ofType (wrapperName "Step" "label") (.optional (.named "string")) =
      .scalar "string" := by
    have hnamed : (TypeExpr.named "string").optional.withoutNull =
        (TypeExpr.named "string").withoutNull := TypeExpr.withoutNull_optional (by decide)
    rw [FieldShape.ofType_congr hnamed, FieldShape.ofType_named]
    decide +kernel
  have hwrapper : FieldShape.ofType (wrapperName "Step" "label")
      (.optional (.optional (.named "string"))) = .union "StepLabel" := by
    have hname : wrapperName "Step" "label" = "StepLabel" := by decide +kernel
    rw [hname]
    exact FieldShape.ofType_union (TypeExpr.withoutNull_optional (by decide)) (by decide)
  refine ⟨htext, hwrapper, fun h => ?_⟩
  have hshape := h.shape
  rw [htext, hwrapper] at hshape
  cases hshape

end RecordPlan

end CanonicalCwl
