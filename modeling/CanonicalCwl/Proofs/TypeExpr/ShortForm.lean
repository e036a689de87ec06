import CanonicalCwl.Proofs.TypeExpr.Inside
import Mathlib.Data.List.Permutation

/-!
# Short Forms of Types

The notation of a type has short forms, which may be spelled out anywhere in it: in the members
of a union, in the items of an array and in the fields of a record. It stands for the same type
then.

- `TypeExpr.SpellsOut`: one short form is spelled out.
- `TypeExpr.resolve_eq_of_spellsOut`: it does not matter for what the notation stands for.
-/

namespace CanonicalCwl

open Result

namespace TypeExpr

variable {v v' f f' : Value}

mutual

/-- In the notation of a type one short form is spelled out. -/
inductive SpellsOut : Value → Value → Prop
  /-- `T?` is the union of `null` and `T`. -/
  | optional (s : String) : SpellsOut (.string (s ++ "?")) (.sequence [.string "null", .string s])
  /-- `T[]` is the array of `T`. -/
  | array (s : String) {es : Mapping}
      (h : es.Perm [("type", .string "array"), ("items", .string s)]) :
      SpellsOut (.string (s ++ "[]")) (.mapping es)
  | member (before after : List Value) {v v' : Value} (h : SpellsOut v v') :
      SpellsOut (.sequence (before ++ v :: after)) (.sequence (before ++ v' :: after))
  | items (before after : Mapping) {v v' : Value} (h : SpellsOut v v') :
      SpellsOut (.mapping (before ++ ("items", v) :: after))
        (.mapping (before ++ ("items", v') :: after))
  | listedField (before after : Mapping) (fields fields' : List Value) {f f' : Value}
      (h : FieldSpellsOut f f') :
      SpellsOut (.mapping (before ++ ("fields", .sequence (fields ++ f :: fields')) :: after))
        (.mapping (before ++ ("fields", .sequence (fields ++ f' :: fields')) :: after))
  | keyedField (before after : Mapping) (fields fields' : Mapping) (name : String) {f f' : Value}
      (h : FieldSpellsOut f f') :
      SpellsOut
        (.mapping (before ++ ("fields", .mapping (fields ++ (name, f) :: fields')) :: after))
        (.mapping (before ++ ("fields", .mapping (fields ++ (name, f') :: fields')) :: after))

/-- In the field of a record one short form is spelled out. -/
inductive FieldSpellsOut : Value → Value → Prop
  /-- The field is the type itself. -/
  | itself {v v' : Value} (h : SpellsOut v v') : FieldSpellsOut v v'
  /-- The field declares its type. -/
  | declared (before after : Mapping) {v v' : Value} (h : SpellsOut v v') :
      FieldSpellsOut (.mapping (before ++ ("type", v) :: after))
        (.mapping (before ++ ("type", v') :: after))

end

/-! ## Short forms do not matter -/

/-- A whole notation is a short form and is spelled out. -/
inductive SpellsOutHere : Value → Value → Prop
  | optional (s : String) :
      SpellsOutHere (.string (s ++ "?")) (.sequence [.string "null", .string s])
  | array (s : String) {es : Mapping}
      (h : es.Perm [("type", .string "array"), ("items", .string s)]) :
      SpellsOutHere (.string (s ++ "[]")) (.mapping es)

mutual

/-- A short form is spelled out at some place inside of a notation. -/
theorem inside_of_spellsOut : ∀ {v v' : Value}, SpellsOut v v' → Inside SpellsOutHere v v'
  | _, _, .optional s => .here (.optional s)
  | _, _, .array s hes => .here (.array s hes)
  | _, _, .member before after h => .member before after (inside_of_spellsOut h)
  | _, _, .items before after h => .items before after (inside_of_spellsOut h)
  | _, _, .listedField before after fields fields' h =>
      .listedField before after fields fields' (insideField_of_spellsOut h)
  | _, _, .keyedField before after fields fields' name h =>
      .keyedField before after fields fields' name (insideField_of_spellsOut h)

/-- So it is inside of a field. -/
theorem insideField_of_spellsOut :
    ∀ {f f' : Value}, FieldSpellsOut f f' → InsideField SpellsOutHere f f'
  | _, _, .itself h => .itself (inside_of_spellsOut h)
  | _, _, .declared before after h => .declared before after (inside_of_spellsOut h)

end

/-- Spelling out a short form makes no difference where it stands. -/
theorem harmless_spellsOutHere : Harmless SpellsOutHere := by
  constructor
  case resolve =>
    rintro _ _ (s | ⟨s, hes⟩) context
    · rw [resolve, resolve, resolveAll_eq_mapM, ofShorthand_optional]
      rfl
    · rw [resolve, ofShorthand_array]
      rcases List.perm_pair.mp hes with rfl | rfl <;> rfl
  case declaration =>
    rintro _ _ (s | ⟨s, hes⟩)
    · rfl
    · rcases List.perm_pair.mp hes with rfl | rfl <;> rfl
  case name =>
    rintro _ _ (s | ⟨s, hes⟩)
    · rfl
    · rcases List.perm_pair.mp hes with rfl | rfl <;> rfl
  case noWord =>
    intro v v' h
    -- The words do not end as a short form does.
    cases h with
    | optional s | array s =>
      refine ⟨fun word hword heq => ?_, noWord_of_string?_eq_none rfl⟩
      have hlast := congrArg (fun t => t.toList.getLast?) (Option.some.inj heq)
      simp only [List.mem_cons, List.not_mem_nil, or_false] at hword
      rcases hword with rfl | rfl | rfl <;> simp at hlast

/-- Spelling out a short form does not change what the notation of a type stands for. -/
theorem resolve_eq_of_spellsOut (h : SpellsOut v v') (context : String) :
    resolve context v = resolve context v' :=
  resolve_eq_of_inside harmless_spellsOutHere (inside_of_spellsOut h) context

end TypeExpr

end CanonicalCwl
