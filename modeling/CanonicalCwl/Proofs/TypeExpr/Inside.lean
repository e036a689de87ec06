import CanonicalCwl.Proofs.Entries
import CanonicalCwl.Proofs.Result
import CanonicalCwl.Proofs.TypeExpr.Notation

/-!
# Changes Inside of Types

The notation of a type may be changed anywhere in it: in the members of a union, in the items of an
array and in the fields of a record. If a change makes no difference where it stands, it makes none
to the type around it.

- `TypeExpr.Inside`: some part of a notation is changed.
- `TypeExpr.Harmless`: the changes that make no difference where they stand.
- `TypeExpr.resolve_eq_of_inside`: they make none anywhere.
-/

namespace CanonicalCwl

open Result

namespace TypeExpr

variable {v v' f f' : Value}

/-! ## Reading by lookups -/

/-- A key of a mapping is looked up. -/
theorem resolveUnder_eq (key context : String) (es : Mapping) :
    resolveUnder key context es = (Entries.get? es key).map (resolve context) := by
  induction es with
  | nil => rfl
  | cons e rest ih =>
    obtain ⟨k, v⟩ := e
    rw [resolveUnder, Entries.get?_cons, ih]
    split <;> rfl

/-- The fields of a record are looked up. -/
theorem fieldsUnder_eq (context : String) (es : Mapping) :
    fieldsUnder context es = ((Entries.get? es "fields").map (resolveFields context)).getD [] := by
  induction es with
  | nil => rfl
  | cons e rest ih =>
    obtain ⟨k, v⟩ := e
    rw [fieldsUnder, Entries.get?_cons, ih]
    split <;> rfl

/-- Members are read one by one. -/
theorem resolveAll_eq_mapM (context : String) (vs : List Value) :
    resolveAll context vs = vs.mapM (resolve context) := by
  induction vs with
  | nil => rfl
  | cons v vs ih => rw [resolveAll, List.mapM_cons, ih]

/-- What a field declares: the notation of its type, its documentation and its default. -/
def declaration? : Value → Option (Value × List String × Option Value)
  | .mapping es =>
      if isTypeMapping es then none
      else (Entries.get? es "type").map fun type =>
        (type, docTexts (Entries.get? es "doc"), Entries.get? es "default")
  | _ => none

/-- What becomes of a field under its name. -/
def outcome (context name : String) (f : Value) : Except Diagnostic Field :=
  fieldOutcome context name f
    ((declaredType (fieldContext context name) f).getD (resolve (fieldContext context name) f))

/-- Listed fields are read one by one. -/
theorem listedFields_eq_map (context : String) (fs : List Value) :
    listedFields context fs = fs.map fun f => outcome context ((f.text? "name").getD "") f := by
  induction fs with
  | nil => rfl
  | cons f fs ih =>
    rw [listedFields, List.map_cons, ih]
    rfl

/-- Keyed fields are read one by one. -/
theorem keyedFields_eq_map (context : String) (fs : Mapping) :
    keyedFields context fs = fs.map fun f => outcome context f.1 f.2 := by
  induction fs with
  | nil => rfl
  | cons f fs ih =>
    obtain ⟨name, f⟩ := f
    rw [keyedFields, List.map_cons, ih]
    rfl

/-- A field without a name is refused; otherwise it has the type that is given for it. -/
theorem fieldOutcome_eq_map (context name : String) (f : Value)
    (type : Except Diagnostic TypeExpr) :
    fieldOutcome context name f type =
      if name.isEmpty then .error (.missingName context "field")
      else type.map fun type =>
        let (_, doc, default) := (declaration? f).getD (f, [], none)
        { name, type, doc, default } := by
  rw [fieldOutcome.eq_def]
  split
  · rfl
  cases type with
  | error d => cases f <;> rfl
  | ok type =>
    cases f with
    | mapping es =>
      cases htype : isTypeMapping es <;> cases hget : Entries.get? es "type" <;>
        simp [declaration?, declaresField, Entries.contains, htype, hget, Except.map]
    | _ => rfl

/-- What becomes of a field depends on what it declares; if it declares nothing, it is the type
itself. -/
theorem outcome_eq (context name : String) (f : Value) :
    outcome context name f =
      if name.isEmpty then .error (.missingName context "field")
      else
        let (type, doc, default) := (declaration? f).getD (f, [], none)
        (resolve (fieldContext context name) type).map fun type =>
          { name, type, doc, default } := by
  rw [outcome, fieldOutcome_eq_map]
  cases f with
  | mapping es =>
    rw [declaredType, resolveUnder_eq]
    cases htype : isTypeMapping es <;> cases hget : Entries.get? es "type" <;>
      simp [declaration?, declaresField, Entries.contains, htype, hget]
  | _ => rfl

/-! ## Places inside of types -/

mutual

/-- Somewhere inside of the notation of a type a part is changed as the relation tells. -/
inductive Inside (R : Value → Value → Prop) : Value → Value → Prop
  | here {v v' : Value} (h : R v v') : Inside R v v'
  | member (before after : List Value) {v v' : Value} (h : Inside R v v') :
      Inside R (.sequence (before ++ v :: after)) (.sequence (before ++ v' :: after))
  | items (before after : Mapping) {v v' : Value} (h : Inside R v v') :
      Inside R (.mapping (before ++ ("items", v) :: after))
        (.mapping (before ++ ("items", v') :: after))
  | listedField (before after : Mapping) (fields fields' : List Value) {f f' : Value}
      (h : InsideField R f f') :
      Inside R (.mapping (before ++ ("fields", .sequence (fields ++ f :: fields')) :: after))
        (.mapping (before ++ ("fields", .sequence (fields ++ f' :: fields')) :: after))
  | keyedField (before after : Mapping) (fields fields' : Mapping) (name : String) {f f' : Value}
      (h : InsideField R f f') :
      Inside R
        (.mapping (before ++ ("fields", .mapping (fields ++ (name, f) :: fields')) :: after))
        (.mapping (before ++ ("fields", .mapping (fields ++ (name, f') :: fields')) :: after))

/-- Somewhere inside of the field of a record a part is changed as the relation tells. -/
inductive InsideField (R : Value → Value → Prop) : Value → Value → Prop
  /-- The field is the type itself. -/
  | itself {v v' : Value} (h : Inside R v v') : InsideField R v v'
  /-- The field declares its type. -/
  | declared (before after : Mapping) {v v' : Value} (h : Inside R v v') :
      InsideField R (.mapping (before ++ ("type", v) :: after))
        (.mapping (before ++ ("type", v') :: after))

end

/-- The node is no word for an array, a record or an enumeration. -/
def NoWord (v : Value) : Prop := ∀ word ∈ ["array", "record", "enum"], v.string? ≠ some word

/-- What is no text is no word. -/
theorem noWord_of_string?_eq_none (h : v.string? = none) : NoWord v := by
  intro word _ hword
  rw [h] at hword
  cases hword

/-- Changes that make no difference where they stand: neither to the type that a notation stands
for nor to what it is as the field of a record or as the type that a field declares. -/
structure Harmless (R : Value → Value → Prop) : Prop where
  resolve : ∀ {v v'}, R v v' → ∀ context, resolve context v = resolve context v'
  declaration : ∀ {v v'}, R v v' → declaration? v = declaration? v'
  name : ∀ {v v'}, R v v' → v.text? "name" = v'.text? "name"
  noWord : ∀ {v v'}, R v v' → NoWord v ∧ NoWord v'

/-- A mapping stands for a type by a few of its keys. -/
theorem resolve_mapping_congr {es es' : Mapping} (context : String)
    (hkeys : ∀ key ∈ ["type", "name", "symbols"], Entries.get? es key = Entries.get? es' key)
    (hitems : (Entries.get? es "items").map (resolve context) =
      (Entries.get? es' "items").map (resolve context))
    (hfields : ∀ context, (fieldsUnder context es).filterMap Except.toOption =
      (fieldsUnder context es').filterMap Except.toOption) :
    resolve context (.mapping es) = resolve context (.mapping es') := by
  simp only [List.forall_mem_cons] at hkeys
  obtain ⟨htype, hname, hsymbols, -⟩ := hkeys
  simp only [resolve, resolveUnder_eq, unrecognized, Value.kind, htype, hname, hsymbols, hitems,
    hfields]

/-- A listed field may be replaced by one of the same name of which the same becomes. -/
theorem fieldsUnder_replace_listed (before after : Mapping) (fields fields' : List Value)
    (hname : f.text? "name" = f'.text? "name")
    (houtcome : ∀ context name, outcome context name f = outcome context name f')
    (context : String) :
    fieldsUnder context (before ++ ("fields", .sequence (fields ++ f :: fields')) :: after) =
      fieldsUnder context (before ++ ("fields", .sequence (fields ++ f' :: fields')) :: after) := by
  cases hget : Entries.get? before "fields" <;>
    simp [fieldsUnder_eq, Entries.get?_cons, hget, resolveFields, listedFields_eq_map, houtcome,
      hname, -Value.text?_eq]

/-- A keyed field may be replaced by one of which the same becomes. -/
theorem fieldsUnder_replace_keyed (before after fields fields' : Mapping) (name : String)
    (houtcome : ∀ context name, outcome context name f = outcome context name f')
    (context : String) :
    fieldsUnder context (before ++ ("fields", .mapping (fields ++ (name, f) :: fields')) :: after) =
      fieldsUnder context
        (before ++ ("fields", .mapping (fields ++ (name, f') :: fields')) :: after) := by
  cases hget : Entries.get? before "fields" <;>
    simp [fieldsUnder_eq, Entries.get?_cons, hget, resolveFields, keyedFields_eq_map, houtcome]

/-- What becomes of a field that is a mapping depends on what its keys hold. -/
theorem outcome_congr {es es' : Mapping} (context name : String)
    (h : ∀ key, Entries.get? es key = Entries.get? es' key) :
    outcome context name (.mapping es) = outcome context name (.mapping es') := by
  have hresolve : resolve (fieldContext context name) (.mapping es) =
      resolve (fieldContext context name) (.mapping es') := by
    refine resolve_mapping_congr _ (fun key _ => h key) (by rw [h]) fun context => ?_
    rw [fieldsUnder_eq, fieldsUnder_eq, h]
  have htype : isTypeMapping es = isTypeMapping es' := by
    simp only [isTypeMapping, Entries.contains, h]
  have hdeclaration : declaration? (.mapping es) = declaration? (.mapping es') := by
    simp only [declaration?, htype, h]
  rw [outcome_eq, outcome_eq, hdeclaration]
  cases declaration? (.mapping es') with
  | some d => rfl
  | none => simp only [Option.getD_none, hresolve]

/-- A mapping whose type is not a word for an array, a record or an enumeration declares it. -/
theorem declaration?_type {before after : Mapping} (hbefore : Entries.get? before "type" = none)
    (hword : NoWord v) :
    declaration? (.mapping (before ++ ("type", v) :: after)) =
      some (v, docTexts ((Entries.get? before "doc").or (Entries.get? after "doc")),
        (Entries.get? before "default").or (Entries.get? after "default")) := by
  have htype : isTypeMapping (before ++ ("type", v) :: after) = false := by
    simp only [NoWord, List.forall_mem_cons] at hword
    obtain ⟨harray, hrecord, henum, -⟩ := hword
    -- No case of a word is left, by the assumptions.
    rw [isTypeMapping]
    simp [hbefore, Entries.get?_cons]
  simp [declaration?, htype, hbefore, Entries.get?_cons]

section Harmless

variable {R : Value → Value → Prop}

/-- What is changed inside is no word for an array, a record or an enumeration. -/
theorem noWord_of_inside (hR : Harmless R) (h : Inside R v v') : NoWord v ∧ NoWord v' := by
  cases h with
  | here h => exact hR.noWord h
  | _ => exact ⟨noWord_of_string?_eq_none rfl, noWord_of_string?_eq_none rfl⟩

/-- A change inside does not matter to what a field declares if it is the type itself. -/
theorem declaration?_eq_of_inside (hR : Harmless R) (h : Inside R v v') :
    declaration? v = declaration? v' ∧ v.text? "name" = v'.text? "name" := by
  cases h with
  | here h => exact ⟨hR.declaration h, hR.name h⟩
  | member before after h => exact ⟨rfl, rfl⟩
  | items before after h | listedField before after _ _ h | keyedField before after _ _ _ h =>
    simp [declaration?, isTypeMapping, Entries.contains, Entries.get?_cons]

mutual

/-- A change that makes no difference where it stands makes none to the type around it. -/
theorem resolve_eq_of_inside (hR : Harmless R) : ∀ {v v' : Value}, Inside R v v' → ∀ context,
    resolve context v = resolve context v'
  | _, _, .here h, context => hR.resolve h context
  | _, _, .member before after h, context => by
      simp [resolve, resolveAll_eq_mapM, resolve_eq_of_inside hR h context]
  | _, _, .items before after h, context => by
      refine resolve_mapping_congr context (by simp [Entries.get?_cons]) ?_ fun context => ?_
      · cases hget : Entries.get? before "items" <;>
          simp [Entries.get?_cons, hget, resolve_eq_of_inside hR h context]
      · simp [fieldsUnder_eq, Entries.get?_cons]
  | _, _, .listedField before after fields fields' h, context => by
      obtain ⟨hname, houtcome⟩ := outcome_eq_of_insideField hR h
      refine resolve_mapping_congr context (by simp [Entries.get?_cons])
        (by simp [Entries.get?_cons]) fun context => ?_
      rw [fieldsUnder_replace_listed before after fields fields' hname houtcome]
  | _, _, .keyedField before after fields fields' name h, context => by
      obtain ⟨-, houtcome⟩ := outcome_eq_of_insideField hR h
      refine resolve_mapping_congr context (by simp [Entries.get?_cons])
        (by simp [Entries.get?_cons]) fun context => ?_
      rw [fieldsUnder_replace_keyed before after fields fields' name houtcome]

/-- Nor does it make one to what becomes of a field around it. -/
theorem outcome_eq_of_insideField (hR : Harmless R) : ∀ {f f' : Value}, InsideField R f f' →
    f.text? "name" = f'.text? "name" ∧ ∀ context name,
      outcome context name f = outcome context name f'
  | v, v', .itself h => by
      obtain ⟨hdeclaration, hname⟩ := declaration?_eq_of_inside hR h
      refine ⟨hname, fun context name => ?_⟩
      rw [outcome_eq, outcome_eq, hdeclaration]
      cases declaration? v' with
      | some d => rfl
      | none => simp only [Option.getD_none, resolve_eq_of_inside hR h]
  | _, _, .declared before after h => by
      refine ⟨by simp [Value.text?, Value.get?, Entries.get?_cons], fun context name => ?_⟩
      cases hget : Entries.get? before "type" with
      | some type =>
        -- An earlier type is the one that counts, and so nothing has changed.
        refine outcome_congr context name fun key => ?_
        by_cases hkey : "type" = key
        · subst hkey
          simp [hget]
        · simp [Entries.get?_cons, hkey]
      | none =>
        obtain ⟨hv, hv'⟩ := noWord_of_inside hR h
        rw [outcome_eq, outcome_eq, declaration?_type hget hv, declaration?_type hget hv']
        simp only [Option.getD_some, resolve_eq_of_inside hR h]

end

end Harmless

end TypeExpr

end CanonicalCwl
