import CanonicalCwl.Proofs.Emit.Repetition

/-!
# Wrappers in Interface Descriptions

The description of a record has messages for those wrappers of its plan that a field of its own
message has as its type, possibly repeated, and for those that go by the name of a member of another
wrapper. A field with a fixed type leaves out its wrapper. But whether the wrapper with the member
is itself in the description is not looked at, and so the wrappers for array elements inside of it
are left behind, although nothing has them as its type.

- `Proto.Uses`: a field in the description of a record has a wrapper as its type.
- `Proto.LeftBehind`: a wrapper is there for the sake of a member only.
- `Proto.WrapperUse`: the wrappers in the description of a record.
- `Proto.wrapperUse_default`: with the default tables the wrappers are these.
-/

namespace CanonicalCwl

open TypeExpr (choices choicesAll ReferredBy isScalarName)

/-! ## What members stand for -/

namespace TypeExpr

variable {part : TypeExpr} {n : String}

mutual

/-- A type refers to what the types that are left of it refer to. -/
theorem refersTo_of_mem_choices : ∀ {t : TypeExpr}, part ∈ choices t → part.RefersTo n →
    t.RefersTo n
  | union members, hpart, h => (referredBy_of_mem_choicesAll hpart h).of_union
  | named name, hpart, h => by
      rw [choices] at hpart
      · split_ifs at hpart
        · cases hpart
        · exact List.mem_singleton.mp hpart ▸ h
      · exact fun members h => by cases h
  | array items, hpart, h | record name fields, hpart, h | enum name symbols, hpart, h =>
      List.mem_singleton.mp hpart ▸ h

theorem referredBy_of_mem_choicesAll : ∀ {types : List TypeExpr}, part ∈ choicesAll types →
    part.RefersTo n → ReferredBy types n
  | t :: rest, hpart, h => by
      rcases List.mem_append.mp hpart with hpart | hpart
      · exact ⟨t, List.mem_cons_self .., refersTo_of_mem_choices hpart h⟩
      · exact (referredBy_of_mem_choicesAll hpart h).cons

end

end TypeExpr

namespace UnionSignature

variable {wrapper : String} {t : TypeExpr} {types : List TypeExpr} {m : UnionMember}

/-- A member that is not for an array of a union goes by a scalar or by what its type refers to. -/
theorem isScalarName_or_refersTo_memberOf (h : t.elementMembers? = none) :
    isScalarName (memberOf wrapper t).underlying ∨ t.RefersTo (memberOf wrapper t).underlying := by
  by_cases harray : t.isArray
  · obtain ⟨items, rfl⟩ := TypeExpr.eq_array_of_isArray harray
    have hseveral : ¬ items.withoutNull.severalMembers?.isSome := by
      rw [Option.not_isSome_iff_eq_none]
      exact h
    rw [memberOf, arrayMember, if_neg hseveral]
    exact (TypeExpr.isScalarName_or_refersTo_underlying _).imp_right (.of_item rfl)
  · rw [memberOf_of_not_isArray harray]
    exact TypeExpr.isScalarName_or_refersTo_underlying t

/-- A member of a wrapper is for an array of a union, or it goes by a scalar or by what the types of
the wrapper refer to. -/
theorem mem_members_build_cases (h : m ∈ (build wrapper types).members) :
    m = ⟨elementName wrapper, true⟩ ∨
      isScalarName m.underlying ∨ ReferredBy types m.underlying := by
  rw [members_build] at h
  obtain ⟨t, ht, rfl⟩ := List.mem_map.mp (mem_prune_iff.mp h).1
  cases hmembers : t.elementMembers? with
  | some members => exact .inl (memberOf_of_elementMembers? hmembers)
  | none =>
    right
    exact (isScalarName_or_refersTo_memberOf hmembers).imp_right
      (TypeExpr.referredBy_of_mem_choicesAll ht)

end UnionSignature

theorem elementName_ne_self (name : String) : elementName name ≠ name := by
  intro h
  have hlength := length_elementName name
  rw [h] at hlength
  omega

namespace RecordPlan

open UnionSignature

variable {r : Schema.RecordDef} {u outer : UnionSignature} {m : UnionMember}

/-- A wrapper of a plan is named by the shape of a field or by a member of another wrapper. -/
theorem named_of_mem_unions (h : u ∈ (ofRecord r).unions) :
    (∃ f ∈ (ofRecord r).fields, f.shape.wrapper? = some u.name) ∨
      ∃ outer ∈ (ofRecord r).unions, ⟨u.name, true⟩ ∈ outer.members := by
  obtain ⟨before, after, hsplit⟩ := List.append_of_mem h
  have hfront : before ++ [u] <+: (ofRecord r).unions := ⟨after, by simp [hsplit]⟩
  obtain ⟨types, hneeds, -⟩ := (inOrder_unions r).exists_types hfront
  generalize u.name = name at hneeds
  cases hneeds with
  | field hf hshape _ => exact .inl ⟨_, hf, hshape⟩
  | @elements wrapper types t members hneeds ht hmembers =>
    have hmember : memberOf wrapper t = ⟨elementName wrapper, true⟩ :=
      memberOf_of_elementMembers? hmembers
    refine .inr ⟨_, hneeds.withElements_subset (build_mem_withElements wrapper types), ?_⟩
    rw [← hmember]
    exact mem_members_build_of_isArray ht (by rw [hmember])

/-- A member of a wrapper of a plan is for an array of a union, or it goes by a scalar or by what
the record refers to. -/
theorem mem_members_cases (houter : outer ∈ (ofRecord r).unions) (hm : m ∈ outer.members) :
    m = ⟨elementName outer.name, true⟩ ∨ isScalarName m.underlying ∨ r.RefersTo m.underlying := by
  obtain ⟨types, htypes⟩ := exists_built_of_mem_unions houter
  rw [htypes.eq] at hm
  exact (mem_members_build_cases hm).imp_right (.imp_right (htypes.refers _))

end RecordPlan

/-! ## What is in a description -/

namespace Emit.Proto

open Schema RecordPlan

variable {tables : Tables} {reg : Registry} {r : RecordDef} {u outer : UnionSignature}
  {m : UnionMember} {f : PlannedField} {name : String}

/-- The wrappers in the description of a record. -/
def wrappers (tables : Tables) (reg : Registry) (r : RecordDef) : List UnionSignature :=
  emittedWrappers (recordFields tables reg (ofRecord r)) (ofRecord r)

/-- Something in the description of a record has the wrapper as its type, possibly repeated: a field
of the message of the record, or the field for a member of another wrapper that goes by its name. -/
inductive Uses (tables : Tables) (reg : Registry) (r : RecordDef) (u : UnionSignature) : Prop
  | field {f : Field} (hf : f ∈ recordFields tables reg (ofRecord r)) (h : f.mentions u.name) :
      Uses tables reg r u
  | member {outer : UnionSignature} {m : UnionMember} (houter : outer ∈ wrappers tables reg r)
      (hne : outer ≠ u) (hm : m ∈ outer.members) (hname : m.underlying = u.name)
      (h : (memberField tables reg m).mentions u.name) : Uses tables reg r u

/-- The wrapper is in the description of a record for the sake of a member only. Either it is for
the elements of an array in another wrapper, which is not in the description, or the name that the
member goes by is only by accident that of the wrapper. -/
inductive LeftBehind (tables : Tables) (reg : Registry) (r : RecordDef) (u : UnionSignature) : Prop
  | element {outer : UnionSignature} (houter : outer ∈ (ofRecord r).unions)
      (homitted : outer ∉ wrappers tables reg r) (hm : ⟨u.name, true⟩ ∈ outer.members)
      (hname : u.name = elementName outer.name) : LeftBehind tables reg r u
  | accident {outer : UnionSignature} {m : UnionMember} (houter : outer ∈ (ofRecord r).unions)
      (hm : m ∈ outer.members) (hname : m.underlying = u.name)
      (h : isScalarName u.name ∨ r.RefersTo u.name) : LeftBehind tables reg r u

/-- The wrappers in the description of a record. -/
structure WrapperUse (tables : Tables) (reg : Registry) (r : RecordDef) : Prop where
  /-- A wrapper of the plan is there if something has it as its type, or else if it is left behind.
  -/
  mem_iff : ∀ u ∈ (ofRecord r).unions,
    u ∈ wrappers tables reg r ↔ Uses tables reg r u ∨ LeftBehind tables reg r u
  /-- Only fields leave out their wrappers: those with a fixed type, and those for lists of lists.
  -/
  omitted : ∀ u ∈ (ofRecord r).unions, u ∉ wrappers tables reg r →
    ∃ f ∈ (ofRecord r).fields, f.shape.wrapper? = some u.name ∧
      ((tables.fixedType? r.name f.name).isSome ∨ 2 ≤ f.shape.arrays)

theorem mem_wrappers_iff : u ∈ wrappers tables reg r ↔ u ∈ (ofRecord r).unions ∧
    ((∃ f ∈ recordFields tables reg (ofRecord r), f.mentions u.name) ∨
      ∃ outer ∈ (ofRecord r).unions, ∃ m ∈ outer.members, m.underlying = u.name) := by
  simp [wrappers, emittedWrappers, isNested]

/-- A field is spelled by the wrapper that its shape names. -/
theorem itemType_eq_of_wrapper? {shape : FieldShape} (h : shape.wrapper? = some name) :
    itemType tables reg shape = name := by
  induction shape with
  | scalar name' | ref name' => cases h
  | union wrapper => exact Option.some.inj h
  | array item ih => exact ih h

/-- So it has the wrapper as its type, unless its type is fixed or it is for lists of lists. -/
theorem mentions_recordField (hshape : f.shape.wrapper? = some name)
    (hfixed : tables.fixedType? r.name f.name = none) (harrays : f.shape.arrays < 2) :
    (recordField tables reg r.name f).mentions name := by
  have htype : (recordField tables reg r.name f).type = repeated^[f.shape.arrays] name := by
    rw [← itemType_eq_of_wrapper? hshape, ← shapeType_eq_iterate, recordField, hfixed]
    rfl
  rw [Field.mentions, htype, Bool.or_eq_true, beq_iff_eq, beq_iff_eq]
  obtain hnone | hone : f.shape.arrays = 0 ∨ f.shape.arrays = 1 := by omega
  · exact .inl (by rw [hnone]; rfl)
  · exact .inr (by rw [hone]; rfl)

/-- The wrappers that nothing leaves out are in the description. -/
theorem exists_field_of_notMem_wrappers (hu : u ∈ (ofRecord r).unions)
    (h : u ∉ wrappers tables reg r) :
    ∃ f ∈ (ofRecord r).fields, f.shape.wrapper? = some u.name ∧
      ((tables.fixedType? r.name f.name).isSome ∨ 2 ≤ f.shape.arrays) := by
  rcases named_of_mem_unions hu with ⟨f, hf, hshape⟩ | ⟨outer, houter, hm⟩
  · refine ⟨f, hf, hshape, ?_⟩
    by_contra! hplain
    have hfixed := Option.not_isSome_iff_eq_none.mp hplain.1
    have hmentions : (recordField tables reg r.name f).mentions u.name :=
      mentions_recordField hshape hfixed hplain.2
    exact h (mem_wrappers_iff.mpr ⟨hu, .inl ⟨_, List.mem_map_of_mem hf, hmentions⟩⟩)
  · exact absurd (mem_wrappers_iff.mpr ⟨hu, .inr ⟨outer, houter, _, hm, rfl⟩⟩) h

section Keys

variable (hkeys : ∀ key ∈ Entries.keys tables.protoAliases ++ Entries.keys tables.protoScalars,
  ¬ isElementName key)

include hkeys

/-- The name of a wrapper for array elements is spelled as it is. -/
theorem nameType_elementName (name : String) :
    nameType tables reg (elementName name) = elementName name := by
  have helement := isElementName_elementName name
  have haliases : Entries.get? tables.protoAliases (elementName name) = none :=
    Entries.get?_eq_none_iff.mpr fun h => hkeys _ (List.mem_append_left _ h) helement
  have hscalars : Entries.get? tables.protoScalars (elementName name) = none :=
    Entries.get?_eq_none_iff.mpr fun h => hkeys _ (List.mem_append_right _ h) helement
  rw [nameType, haliases, hscalars]
  exact if_pos (by simp [helement])

/-- The field for an array of a union has the wrapper for the elements as its type. -/
theorem mentions_memberField_elementName (name : String) :
    (memberField tables reg ⟨elementName name, true⟩).mentions (elementName name) := by
  have htype : (memberField tables reg ⟨elementName name, true⟩).type =
      repeated (elementName name) := congrArg repeated (nameType_elementName hkeys name)
  rw [Field.mentions, htype, Bool.or_eq_true, beq_iff_eq, beq_iff_eq]
  exact .inr rfl

/-- If the tables do not spell the names of wrappers for array elements in a way of their own, then
the wrappers that are not left behind are used. -/
theorem wrapperUse_of_keys (reg : Registry) (r : RecordDef) : WrapperUse tables reg r := by
  constructor
  case mem_iff =>
    intro u hu
    constructor
    · intro h
      rcases (mem_wrappers_iff.mp h).2 with ⟨f, hf, hmentions⟩ | ⟨outer, houter, m, hm, hname⟩
      · exact .inl (.field hf hmentions)
      -- A member is found by its name, and so it need not be the one that the wrapper is for.
      rcases mem_members_cases houter hm with rfl | hreference
      · by_cases hinside : outer ∈ wrappers tables reg r
        · have hne : outer ≠ u := by
            rintro rfl
            exact elementName_ne_self outer.name hname
          refine .inl (.member hinside hne hm hname ?_)
          rw [← hname]
          exact mentions_memberField_elementName hkeys outer.name
        · exact .inr (.element houter hinside (hname ▸ hm) hname.symm)
      · exact .inr (.accident houter hm hname (hname ▸ hreference))
    · rintro (h | h)
      · cases h with
        | field hf hmentions => exact mem_wrappers_iff.mpr ⟨hu, .inl ⟨_, hf, hmentions⟩⟩
        | member houter hne hm hname h =>
          have houter := (mem_wrappers_iff.mp houter).1
          exact mem_wrappers_iff.mpr ⟨hu, .inr ⟨_, houter, _, hm, hname⟩⟩
      · cases h with
        | element houter homitted hm hname =>
          exact mem_wrappers_iff.mpr ⟨hu, .inr ⟨_, houter, _, hm, rfl⟩⟩
        | accident houter hm hname h =>
          exact mem_wrappers_iff.mpr ⟨hu, .inr ⟨_, houter, _, hm, hname⟩⟩
  case omitted =>
    intro u hu h
    exact exists_field_of_notMem_wrappers hu h

end Keys

/-- With the default tables, the wrappers in the description of a record are those that something
there has as its type, and those that are left behind. -/
theorem wrapperUse_default (reg : Registry) (r : RecordDef) : WrapperUse .default reg r :=
  wrapperUse_of_keys (by decide +kernel) reg r

/-- A record node with a field that has a fixed type in place of a union, and in the union an array
of another union. -/
def stepNode : Value :=
  .mapping [("type", .string "record"), ("name", .string "WorkflowStep"),
    ("fields", .sequence [.mapping [("name", .string "run"), ("type", .sequence [.string "string",
      .mapping [("type", .string "array"),
        ("items", .sequence [.string "string", .string "int"])]])]])]

/-- The members of the union. -/
def runTypes : List TypeExpr :=
  [.named "string", .array (.union [.named "string", .named "int"])]

/-- The record that the node declares. -/
def stepRecord : RecordDef := ⟨"WorkflowStep", [⟨"run", .union runTypes, [], none⟩], [], []⟩

/-- The wrapper for the elements of the array. -/
def runElement : UnionSignature := ⟨"WorkflowStepRunElement", [⟨"string", false⟩, ⟨"int", false⟩]⟩

theorem registry_stepNode :
    (Resolution.ofNodes [stepNode]).registry = [("WorkflowStep", .record stepRecord)] :=
  Resolution.registry_ofSurvey_of_lone (by decide +kernel) rfl rfl

/-- The plan of the record. -/
def stepPlan : RecordPlan :=
  ⟨"WorkflowStep", [⟨"run", .union runTypes, .union "WorkflowStepRun"⟩],
    [runElement, ⟨"WorkflowStepRun", [⟨"string", false⟩, ⟨"WorkflowStepRunElement", true⟩]⟩]⟩

theorem ofRecord_stepRecord : ofRecord stepRecord = stepPlan := by
  have hname : wrapperName "WorkflowStep" "run" = "WorkflowStepRun" := by decide +kernel
  have htype : (TypeExpr.union runTypes).withoutNull = .union runTypes := rfl
  have hscalars : UnionSignature.withElements "WorkflowStepRunElement"
      [.named "string", .named "int"] = [runElement] := by
    rw [UnionSignature.withElements, UnionSignature.elements_eq_flatMap, UnionSignature.build,
      UnionSignature.collect_eq_map]
    decide +kernel
  have hunions : UnionSignature.ofType "WorkflowStepRun" (.union runTypes) = stepPlan.unions := by
    have helements : TypeExpr.elementUnionsAll runTypes = [[.named "string", .named "int"]] := rfl
    have helement : elementName "WorkflowStepRun" = "WorkflowStepRunElement" := by decide +kernel
    rw [UnionSignature.ofType_union htype (by decide), UnionSignature.withElements,
      UnionSignature.elements_eq_flatMap, helements, List.flatMap_singleton, helement, hscalars,
      UnionSignature.build, UnionSignature.collect_eq_map]
    decide +kernel
  rw [ofRecord, stepRecord, firstOfEach, firstOfEach, List.filter_nil, List.map_singleton,
    List.flatMap_singleton, hname, FieldShape.ofType_union htype (by decide), hunions]
  rfl

/-- The type of the only field is fixed. -/
theorem recordFields_stepPlan (reg : Registry) : recordFields .default reg stepPlan =
    [⟨"RunRecord", "run", "string | string | int[]"⟩] := by
  have hfixed : Tables.default.fixedType? "WorkflowStep" "run" = some "RunRecord" := by
    decide +kernel
  have hfield : (⟨"RunRecord", fieldName "run", (TypeExpr.union runTypes).describe⟩ : Field) =
      ⟨"RunRecord", "run", "string | string | int[]"⟩ := by decide +kernel
  rw [recordFields, stepPlan, List.map_singleton, recordField, hfixed]
  exact congrArg ([·]) hfield

/-- So the wrapper for the elements is the only one in the description of the record. -/
theorem wrappers_stepRecord (reg : Registry) : wrappers .default reg stepRecord = [runElement] := by
  rw [wrappers, ofRecord_stepRecord, recordFields_stepPlan]
  decide +kernel

/-- The wrapper is in the description of the record, and nothing has it as its type. -/
theorem not_uses_stepNode :
    stepRecord ∈ emittedRecords .default (Resolution.ofNodes [stepNode]).registry ∧
      runElement ∈ wrappers .default (Resolution.ofNodes [stepNode]).registry stepRecord ∧
      ¬ Uses .default (Resolution.ofNodes [stepNode]).registry stepRecord runElement := by
  have hrecord : emittedRecords .default [("WorkflowStep", .record stepRecord)] = [stepRecord] := by
    decide +kernel
  rw [registry_stepNode, hrecord, wrappers_stepRecord]
  refine ⟨List.mem_singleton_self _, List.mem_singleton_self _, fun h => ?_⟩
  cases h with
  | field hf h =>
    rw [ofRecord_stepRecord, recordFields_stepPlan] at hf
    rw [List.mem_singleton.mp hf] at h
    exact absurd h (by decide +kernel)
  | member houter hne _ _ _ =>
    rw [wrappers_stepRecord] at houter
    exact hne (List.mem_singleton.mp houter)

end Emit.Proto

end CanonicalCwl
