import CanonicalCwl.Proofs.TypeExpr.Inside

/-!
# Keyed and Listed Fields

The fields of a record are a list of declarations or a mapping. Under its name, the mapping has the
declaration of a field or the type alone. Some types are mappings with a `type` of their own; they
are told from declarations by the word that stands there and by the keys that go with it.

- `TypeExpr.DeclaresType`: the nodes that are declarations.
- `TypeExpr.listForm`: the list of declarations that says the same as a mapping.
- `TypeExpr.resolveFields_listForm`: the same becomes of the fields in both forms.
- `TypeExpr.resolve_eq_of_listsFields`: so the form does not matter anywhere inside of a type.
-/

namespace CanonicalCwl

namespace TypeExpr

variable {es es' : Mapping} {f : Value}

/-! ## Declarations -/

/-- The node is itself the type expression of an array, a record or an enumeration: it has the word
for one of them, and a key that goes with one of them. -/
def SpellsType (f : Value) : Prop :=
  (∃ word ∈ ["array", "record", "enum"], f.text? "type" = some word) ∧
    ∃ key ∈ ["items", "symbols", "fields"], (f.get? key).isSome

/-- The node has a `type` and is not itself the type expression of an array, a record or an
enumeration. -/
def DeclaresType (f : Value) : Prop := (f.get? "type").isSome ∧ ¬ SpellsType f

instance : DecidablePred SpellsType := fun _ => inferInstanceAs (Decidable (_ ∧ _))

instance : DecidablePred DeclaresType := fun _ => inferInstanceAs (Decidable (_ ∧ _))

theorem isTypeMapping_iff : isTypeMapping es ↔ SpellsType (.mapping es) := by
  rw [isTypeMapping, Bool.and_eq_true, SpellsType]
  refine and_congr ?_ ?_
  · split <;> simp_all [Value.get?]
  · simp [Entries.contains, Value.get?, or_assoc]

theorem declaration?_eq_none_iff : declaration? f = none ↔ ¬ DeclaresType f := by
  cases f with
  | mapping es =>
    rw [declaration?, DeclaresType, ← isTypeMapping_iff]
    split_ifs with hspells
    · simp [hspells]
    · simp [hspells, Value.get?]
  | _ => simp [declaration?, DeclaresType, Value.get?]

/-- The name does not matter to what a field declares. -/
theorem declaration?_congr (h : ∀ key ≠ "name", Entries.get? es key = Entries.get? es' key) :
    declaration? (.mapping es) = declaration? (.mapping es') := by
  have htype : isTypeMapping es = isTypeMapping es' := by
    simp only [isTypeMapping, Entries.contains, h "type" (by decide), h "items" (by decide),
      h "symbols" (by decide), h "fields" (by decide)]
  simp only [declaration?, htype, h "type" (by decide), h "doc" (by decide),
    h "default" (by decide)]

/-! ## The list form -/

/-- Give a mapping a name, in place of the one that it has. -/
def withName (name : String) : Value → Value
  | .mapping es => .mapping (Entries.insert es "name" (.string name))
  | f => f

/-- The declaration of a keyed field together with its name. -/
def listedField (name : String) (f : Value) : Value :=
  if DeclaresType f then withName name f else .mapping [("name", .string name), ("type", f)]

/-- The list of declarations for keyed fields. -/
def listForm (es : Mapping) : Value := .sequence (es.map fun e => listedField e.1 e.2)

theorem exists_mapping_of_declaresType (h : DeclaresType f) : ∃ es, f = .mapping es := by
  cases f with
  | mapping es => exact ⟨es, rfl⟩
  | _ => cases h.1

theorem text?_listedField (name : String) (f : Value) :
    (listedField name f).text? "name" = some name := by
  rw [listedField]
  split_ifs with hdeclares
  · obtain ⟨es, rfl⟩ := exists_mapping_of_declaresType hdeclares
    simp [withName, Value.get?, Entries.get?_insert]
  · rfl

/-- A declaration declares the same with its name, and a type is what the new declaration declares.
-/
theorem getD_declaration?_listedField (name : String) (f : Value) :
    (declaration? (listedField name f)).getD (listedField name f, [], none) =
      (declaration? f).getD (f, [], none) := by
  rw [listedField]
  split_ifs with hdeclares
  · obtain ⟨es, rfl⟩ := exists_mapping_of_declaresType hdeclares
    have hsame : declaration? (withName name (.mapping es)) = declaration? (.mapping es) :=
      declaration?_congr fun key hkey => by rw [Entries.get?_insert, if_neg hkey.symm]
    rw [hsame]
    cases hdeclared : declaration? (.mapping es) with
    | some d => rfl
    | none => exact absurd hdeclares (declaration?_eq_none_iff.mp hdeclared)
  · -- Whatever the type is, there is no key for a type expression beside it.
    have hnew : declaration? (.mapping [("name", .string name), ("type", f)]) =
        some (f, [], none) := by
      simp [declaration?, isTypeMapping, Entries.contains, Entries.get?_cons, docTexts]
    rw [hnew, declaration?_eq_none_iff.mpr hdeclares]
    rfl

/-- The same becomes of a field in both forms. -/
theorem outcome_listedField (context name : String) (f : Value) :
    outcome context name (listedField name f) = outcome context name f := by
  rw [outcome_eq, outcome_eq, getD_declaration?_listedField]

theorem listedFields_listedField (context : String) (es : Mapping) :
    listedFields context (es.map fun e => listedField e.1 e.2) = keyedFields context es := by
  rw [listedFields_eq_map, keyedFields_eq_map, List.map_map]
  refine List.map_congr_left fun e _ => ?_
  rw [Function.comp_apply, text?_listedField, Option.getD_some, outcome_listedField]

/-- The fields of a mapping and those of its list form become the same one by one, whether they are
fields of the record or are reported. -/
theorem resolveFields_listForm (context : String) (es : Mapping) :
    resolveFields context (listForm es) = resolveFields context (.mapping es) := by
  rw [listForm, resolveFields, resolveFields]
  exact listedFields_listedField context es

/-! ## Both forms inside of types -/

/-- The fields of a record type are listed instead of keyed. -/
inductive ListsFields : Value → Value → Prop
  | fields (before after fields : Mapping) :
      ListsFields (.mapping (before ++ ("fields", .mapping fields) :: after))
        (.mapping (before ++ ("fields", listForm fields) :: after))

/-- This makes no difference where the record type stands. -/
theorem harmless_listsFields : Harmless ListsFields := by
  constructor
  case resolve =>
    intro v v' h context
    obtain ⟨before, after, fields⟩ := h
    refine resolve_mapping_congr context (by simp [Entries.get?_cons])
      (by simp [Entries.get?_cons]) fun context => ?_
    rw [fieldsUnder_eq, fieldsUnder_eq]
    cases hget : Entries.get? before "fields" with
    | some v => simp [hget]
    | none => simp [hget, Entries.get?_cons, listForm, resolveFields, listedFields_listedField]
  case declaration =>
    intro v v' h
    cases h
    simp [declaration?, isTypeMapping, Entries.contains, Entries.get?_cons]
  case name =>
    intro v v' h
    cases h
    simp [Value.get?, Entries.get?_cons]
  case noWord =>
    intro v v' h
    cases h
    exact ⟨noWord_of_string?_eq_none rfl, noWord_of_string?_eq_none rfl⟩

/-- Notations with other forms of fields, in any number of places and at any depth, stand for the
same type or are refused alike. -/
theorem resolve_eq_of_listsFields {v v' : Value} (h : Relation.EqvGen (Inside ListsFields) v v')
    (context : String) : resolve context v = resolve context v' := by
  induction h with
  | rel v v' h => exact resolve_eq_of_inside harmless_listsFields h context
  | refl v => rfl
  | symm v v' _ ih => exact ih.symm
  | trans v v' v'' _ _ ih ih' => exact ih.trans ih'

end TypeExpr

end CanonicalCwl
