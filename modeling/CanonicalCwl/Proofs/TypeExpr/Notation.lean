import CanonicalCwl.Proofs.Shape.Field
import CanonicalCwl.Proofs.Result
import CanonicalCwl.TypeExpr.Notation

/-!
# Types Read from Their Own Notation

What becomes of a type expression that is written in the notation of types and read again.
Names that end like a short notation are taken for one, and fields without a name are lost;
nothing else changes.

- `TypeExpr.resolve_toCwl`: the notation of every type is readable, and is read as `reread`.
- `TypeExpr.reread_eq_self`: a legible type is read as itself.
- `TypeExpr.legible_of_resolve`: every type that was read is legible.
- `TypeExpr.notation_exact`: the legible types are those that are read as themselves, and those that
  are read from any node.
-/

namespace CanonicalCwl

open Result

/-! ## Documentation -/

/-- Documentation is read as it was before it was written. -/
theorem docTexts_docToCwl (doc : List String) :
    docTexts (Entries.get? (TypeExpr.docToCwl doc) "doc") = doc := by
  match doc with
  | [] => rfl
  | [one] => rfl
  | first :: second :: rest =>
    simp only [TypeExpr.docToCwl, Entries.get?_cons, if_true, docTexts]
    exact Value.filterMap_string? _

/-- The texts of a sequence of texts are all there. -/
theorem allStrings?_strings (xs : List String) :
    allStrings? (some (.strings xs)) = some xs := by
  simp only [allStrings?, Value.strings]
  induction xs with
  | nil => rfl
  | cons x xs ih => simp [List.mapM_cons, Value.string?, ih]

namespace TypeExpr

/-! ## The short notation -/

/-- A question mark at the end makes a type optional. -/
theorem ofShorthand_optional (s : String) : ofShorthand (s ++ "?") = optional (ofShorthand s) := by
  simp [ofShorthand, ofReversed]

/-- Brackets at the end make an array of a type. -/
theorem ofShorthand_array (s : String) : ofShorthand (s ++ "[]") = array (ofShorthand s) := by
  simp [ofShorthand, ofReversed]

/-- Whether a text ends as the short notation of an array does. -/
def endsArray (s : String) : Bool := ['[', ']'].isSuffixOf s.toList

/-! ## Reading the notation of a type -/

mutual

/-- What the notation of a type expression is read as: a name may turn out to be a short
notation, and a field without a name is left out. -/
def reread : TypeExpr → TypeExpr
  | named name => ofShorthand name
  | array items => array (reread items)
  | union members => union (rereadAll members)
  | record name fields => record name (rereadFields fields)
  | enum name symbols => enum name symbols

/-- What the notations of the members of a union are read as. -/
def rereadAll : List TypeExpr → List TypeExpr
  | [] => []
  | t :: rest => reread t :: rereadAll rest

/-- What the notations of the fields of a record are read as. -/
def rereadFields : List (FieldOf TypeExpr) → List (FieldOf TypeExpr)
  | [] => []
  | f :: rest =>
      if f.name.isEmpty then rereadFields rest
      else { f with type := reread f.type } :: rereadFields rest

end

/-- The notation of an optional type is read as such, whatever form it takes. -/
theorem resolve_optionalToCwl {context : String} {v : Value} {t : TypeExpr}
    (h : resolve context v = .ok t) : resolve context (optionalToCwl v) = .ok (optional t) := by
  have hnull : resolve context (.string "null") = .ok (named "null") := by
    rw [resolve]
    rfl
  -- Without a short notation, a union with `null` is written.
  have hpair : resolve context (.sequence [.string "null", v]) = .ok (optional t) := by
    simp only [resolve, resolveAll, bind_eq_ok_iff, pure_eq_ok_iff] at hnull ⊢
    exact ⟨_, ⟨_, hnull, _, ⟨t, h, [], rfl, rfl⟩, rfl⟩, rfl⟩
  cases v with
  | string s =>
    simp only [optionalToCwl]
    split
    · exact hpair
    · rw [resolve] at h ⊢
      rw [ofShorthand_optional, Except.ok.inj h]
  | _ => exact hpair

/-- The notation of a field whose type has the given notation. -/
def fieldToCwl (name : String) (type : Value) (doc : List String) (default : Option Value) :
    Mapping :=
  [("name", .string name), ("type", type)] ++ docToCwl doc ++ Entries.optional "default" default

theorem fieldsToCwl_cons (f : Field) (fs : List Field) :
    fieldsToCwl (f :: fs) =
      .mapping (fieldToCwl f.name f.type.toCwl f.doc f.default) :: fieldsToCwl fs := by
  rw [fieldsToCwl]
  rfl

section Field

variable (name : String) (type : Value) (doc : List String) (default : Option Value)

/-- Documentation is found under no other key. -/
theorem get?_docToCwl (key : String) (h : key ≠ "doc") :
    Entries.get? (docToCwl doc) key = none := by
  match doc with
  | [] => rfl
  | [_] | _ :: _ :: _ => simp [docToCwl, Entries.get?_cons, Ne.symm h]

/-- The notation of a field declares a field and is no type expression itself. -/
theorem declaresField_fieldToCwl : declaresField (fieldToCwl name type doc default) = true := by
  simp [declaresField, isTypeMapping, Entries.contains, fieldToCwl, Entries.get?_cons,
    get?_docToCwl]

theorem get?_fieldToCwl_doc :
    Entries.get? (fieldToCwl name type doc default) "doc" = Entries.get? (docToCwl doc) "doc" := by
  simp [fieldToCwl, Entries.get?_cons]

theorem get?_fieldToCwl_default :
    Entries.get? (fieldToCwl name type doc default) "default" = default := by
  simp [fieldToCwl, Entries.get?_cons, get?_docToCwl]

/-- The notation of a field gives the field, unless it has no name. -/
theorem listedFields_fieldToCwl {context : String} {t : TypeExpr} {rest : List Value}
    (h : resolve (fieldContext context name) type = .ok t) :
    listedFields context (.mapping (fieldToCwl name type doc default) :: rest) =
      (if name.isEmpty then .error (.missingName context "field")
        else .ok ⟨name, t, doc, default⟩) :: listedFields context rest := by
  have hname : (Value.mapping (fieldToCwl name type doc default)).text? "name" = some name := by
    simp [Value.text?, Value.get?, fieldToCwl, Entries.get?_cons, Value.string?]
  have htype (inner : String) : resolveUnder "type" inner (fieldToCwl name type doc default) =
      some (resolve inner type) := by
    simp [fieldToCwl, resolveUnder]
  rw [listedFields, hname]
  simp only [Option.getD_some, declaredType, declaresField_fieldToCwl, if_true, htype, h,
    fieldOutcome, get?_fieldToCwl_doc, get?_fieldToCwl_default, docTexts_docToCwl]

end Field

/-- The notation of an array is read as such, whatever form it takes. -/
theorem resolve_arrayToCwl {context : String} {items : TypeExpr}
    (h : resolve context items.toCwl = .ok items.reread) :
    resolve context (array items).toCwl = .ok (array items.reread) := by
  -- Only an array of names has a short notation.
  have hspelled : resolve context (.mapping [("type", .string "array"), ("items", items.toCwl)]) =
      .ok (array items.reread) := by
    simp only [resolve, Entries.get?_cons, if_true, Option.bind_some, Value.string?, resolveUnder,
      String.reduceEq, if_false, h]
    rfl
  cases items with
  | named name => rw [toCwl, resolve, ofShorthand_array, reread]
  | array _ | union _ | record _ _ | enum _ _ =>
    rw [toCwl]
    · exact hspelled
    · nofun

mutual

/-- The notation of every type expression is readable. -/
theorem resolve_toCwl (context : String) :
    ∀ t : TypeExpr, resolve context t.toCwl = .ok t.reread
  | named name => by rw [toCwl, resolve, reread]
  | array items => by
      rw [resolve_arrayToCwl (resolve_toCwl context items), reread]
  | union members => by
      -- A union is the sequence of its members, unless it has two and the first is `null`.
      have hall : resolve context (.sequence (toCwlAll members)) = .ok (union members).reread := by
        rw [resolve, resolveAll_toCwlAll context members, reread]
        rfl
      match members with
      | [first, t] =>
        rw [toCwl]
        split
        next hnull =>
          -- The first member is the name of `null`, which is read as itself.
          obtain rfl : first = named "null" := by
            cases first <;> simp_all [isNull]
          rw [resolve_optionalToCwl (resolve_toCwl context t), reread, rereadAll, rereadAll,
            rereadAll, reread]
          rfl
        · exact hall
      | [] | [_] | _ :: _ :: _ :: _ => exact hall
  | record name fields => by
      rw [toCwl, reread]
      simp [resolve, Entries.get?_cons, Value.string?, fieldsUnder, resolveFields,
        listedFields_fieldsToCwl]
  | enum name symbols => by
      rw [toCwl, reread]
      simp [resolve, Entries.get?_cons, Value.string?, allStrings?_strings]

/-- The notations of all members of a union are readable. -/
theorem resolveAll_toCwlAll (context : String) :
    ∀ ts : List TypeExpr, resolveAll context (toCwlAll ts) = .ok (rereadAll ts)
  | [] => by rw [toCwlAll, resolveAll, rereadAll]
  | t :: ts => by
      rw [toCwlAll, resolveAll, rereadAll, resolve_toCwl context t,
        resolveAll_toCwlAll context ts]
      rfl

/-- The notations of the fields of a record give the fields with a name. -/
theorem listedFields_fieldsToCwl (context : String) :
    ∀ fs : List (FieldOf TypeExpr),
      (listedFields context (fieldsToCwl fs)).filterMap Except.toOption = rereadFields fs
  | [] => by
      rw [fieldsToCwl, listedFields, rereadFields]
      rfl
  | ⟨name, type, doc, default⟩ :: fs => by
      rw [fieldsToCwl_cons, rereadFields,
        listedFields_fieldToCwl _ _ _ _ (resolve_toCwl (fieldContext context name) type)]
      have ih := listedFields_fieldsToCwl context fs
      -- A field without a name gives a diagnostic, which the fields leave out.
      split
      · exact ih
      · rw [List.filterMap_cons, ih]
        rfl

end

/-! ## Types that are read as themselves -/

mutual

/-- No name in the type reads as a short notation, and every field has a name. -/
def Legible : TypeExpr → Prop
  | named name => endsOptional name = false ∧ endsArray name = false
  | array items => items.Legible
  | union members => LegibleAll members
  | record _ fields => LegibleFields fields
  | enum _ _ => True

/-- Every member of a union is legible. -/
def LegibleAll : List TypeExpr → Prop
  | [] => True
  | t :: rest => t.Legible ∧ LegibleAll rest

/-- Every field has a name and a legible type. -/
def LegibleFields : List (FieldOf TypeExpr) → Prop
  | [] => True
  | f :: rest => f.name.isEmpty = false ∧ f.type.Legible ∧ LegibleFields rest

end

/-- A text ends in a question mark exactly if that is its first character from the end. -/
theorem endsOptional_iff {s : String} :
    endsOptional s = true ↔ ∃ rest, s.toList.reverse = '?' :: rest := by
  rw [endsOptional, ← List.head?_reverse]
  cases s.toList.reverse <;> simp

/-- A text ends in brackets exactly if those are its first characters from the end. -/
theorem endsArray_iff {s : String} :
    endsArray s = true ↔ ∃ rest, s.toList.reverse = ']' :: '[' :: rest := by
  rw [endsArray, List.isSuffixOf_iff_suffix, ← List.reverse_prefix]
  constructor
  · rintro ⟨rest, h⟩
    exact ⟨rest, h.symm⟩
  · rintro ⟨rest, h⟩
    exact ⟨rest, h.symm⟩

/-- A name that does not end as a short notation is read as a name. -/
theorem ofShorthand_eq_named {s : String} (hopt : endsOptional s = false)
    (harr : endsArray s = false) : ofShorthand s = named s := by
  rw [ofShorthand, ofReversed]
  · simp
  · intro rest h
    simp [endsOptional_iff.mpr ⟨rest, h⟩] at hopt
  · intro rest h
    simp [endsArray_iff.mpr ⟨rest, h⟩] at harr

mutual

/-- A legible type is read as itself. -/
theorem reread_eq_self : ∀ {t : TypeExpr}, t.Legible → t.reread = t
  | named name, h => by
      rw [Legible] at h
      rw [reread, ofShorthand_eq_named h.1 h.2]
  | array items, h => by
      rw [Legible] at h
      rw [reread, reread_eq_self h]
  | union members, h => by
      rw [Legible] at h
      rw [reread, rereadAll_eq_self h]
  | record name fields, h => by
      rw [Legible] at h
      rw [reread, rereadFields_eq_self h]
  | enum _ _, _ => by rw [reread]

/-- Legible members are read as themselves. -/
theorem rereadAll_eq_self : ∀ {ts : List TypeExpr}, LegibleAll ts → rereadAll ts = ts
  | [], _ => by rw [rereadAll]
  | t :: ts, h => by
      rw [LegibleAll] at h
      rw [rereadAll, reread_eq_self h.1, rereadAll_eq_self h.2]

/-- Legible fields are read as themselves. -/
theorem rereadFields_eq_self :
    ∀ {fs : List (FieldOf TypeExpr)}, LegibleFields fs → rereadFields fs = fs
  | [], _ => by rw [rereadFields]
  | f :: fs, h => by
      rw [LegibleFields] at h
      rw [rereadFields, h.1, reread_eq_self h.2.1, rereadFields_eq_self h.2.2]
      rfl

end

/-! ## Types that were read -/

/-- A short notation stands for a legible type. -/
theorem legible_ofReversed (cs : List Char) : (ofReversed cs).Legible := by
  fun_induction ofReversed cs with
  | case1 rest ih =>
    have hnull : (named "null").Legible := by
      rw [Legible]
      decide
    rw [optional, Legible, LegibleAll, LegibleAll, LegibleAll]
    exact ⟨hnull, ih, trivial⟩
  | case2 rest ih =>
    rw [Legible]
    exact ih
  -- What is left when no short notation fits is a name, whose end fits none.
  | case3 cs hopt harr =>
    rw [Legible]
    refine ⟨Bool.eq_false_iff.mpr fun h => ?_, Bool.eq_false_iff.mpr fun h => ?_⟩
    · obtain ⟨rest, hrest⟩ := endsOptional_iff.mp h
      exact hopt rest (by simpa using hrest)
    · obtain ⟨rest, hrest⟩ := endsArray_iff.mp h
      exact harr rest (by simpa using hrest)

/-- A field comes of an entry only if the entry has a name and a type. -/
theorem fieldOutcome_eq_ok {context name : String} {entry : Value}
    {type : Except Diagnostic TypeExpr} {f : Field}
    (h : fieldOutcome context name entry type = .ok f) :
    f.name.isEmpty = false ∧ type = .ok f.type := by
  rw [fieldOutcome.eq_def] at h
  -- Without a name there is no field, and no other path gives one without a type.
  split at h
  · cases h
  next hname =>
  split at h
  · cases h
  · split at h <;>
    · obtain rfl := Except.ok.inj h
      exact ⟨by simpa using hname, rfl⟩
  · obtain rfl := Except.ok.inj h
    exact ⟨by simpa using hname, rfl⟩

/-- The fields that came of the entries of a record are legible if each is. -/
theorem legibleFields_filterMap {outcomes : List (Except Diagnostic Field)}
    (h : ∀ f, .ok f ∈ outcomes → f.name.isEmpty = false ∧ f.type.Legible) :
    LegibleFields (outcomes.filterMap Except.toOption) := by
  induction outcomes with
  | nil => simp [LegibleFields]
  | cons o os ih =>
    have hrest := ih fun f hf => h f (List.mem_cons_of_mem _ hf)
    cases o with
    | error d => exact hrest
    | ok f =>
      obtain ⟨hname, htype⟩ := h f (List.mem_cons_self ..)
      rw [List.filterMap_cons]
      simp only [Except.toOption, LegibleFields]
      exact ⟨hname, htype, hrest⟩

mutual

/-- Every type that was read is legible. -/
theorem legible_of_resolve :
    ∀ (v : Value) {context : String} {t : TypeExpr}, resolve context v = .ok t → t.Legible
  | .string s, _, _, h => by
      rw [resolve] at h
      obtain rfl := Except.ok.inj h
      exact legible_ofReversed _
  | .sequence members, _, _, h => by
      rw [resolve] at h
      simp only [bind_eq_ok_iff, pure_eq_ok_iff] at h
      obtain ⟨ts, hts, rfl⟩ := h
      rw [Legible]
      exact legibleAll_of_resolveAll members hts
  | .mapping entries, context, _, h => by
      rw [resolve] at h
      -- The class of the type decides: an array, a record, an enum or none of them.
      split at h
      · split at h
        next items hitems =>
          simp only [bind_eq_ok_iff, pure_eq_ok_iff] at h
          obtain ⟨t, rfl, rfl⟩ := h
          rw [Legible]
          exact legible_of_resolveUnder entries hitems
        · cases h
      · obtain rfl := Except.ok.inj h
        rw [Legible]
        exact legibleFields_filterMap fun f hf => legible_of_mem_fieldsUnder entries hf
      · split at h
        · obtain rfl := Except.ok.inj h
          rw [Legible]
          trivial
        · cases h
      · cases h
  | .null, _, _, h | .bool _, _, _, h | .int _, _, _, h | .float _, _, _, h => by
      simp [resolve] at h

/-- Members that were read are legible. -/
theorem legibleAll_of_resolveAll :
    ∀ (vs : List Value) {context : String} {ts : List TypeExpr},
      resolveAll context vs = .ok ts → LegibleAll ts
  | [], _, _, h => by
      rw [resolveAll] at h
      obtain rfl := Except.ok.inj h
      rw [LegibleAll]
      trivial
  | v :: vs, _, _, h => by
      rw [resolveAll] at h
      simp only [bind_eq_ok_iff, pure_eq_ok_iff] at h
      obtain ⟨t, ht, ts, hts, rfl⟩ := h
      rw [LegibleAll]
      exact ⟨legible_of_resolve v ht, legibleAll_of_resolveAll vs hts⟩

/-- A type that was read under a key is legible. -/
theorem legible_of_resolveUnder :
    ∀ (entries : List (String × Value)) {key context : String} {t : TypeExpr},
      resolveUnder key context entries = some (.ok t) → t.Legible
  | [], _, _, _, h => by simp [resolveUnder] at h
  | (k, v) :: rest, _, _, _, h => by
      rw [resolveUnder] at h
      split at h
      · exact legible_of_resolve v (Option.some.inj h)
      · exact legible_of_resolveUnder rest h

/-- The type that a field declaration gives is legible. -/
theorem legible_of_declaredType :
    ∀ (v : Value) {context : String} {t : TypeExpr},
      declaredType context v = some (.ok t) → t.Legible
  | .mapping entries, _, _, h => by
      rw [declaredType] at h
      split at h
      · exact legible_of_resolveUnder entries h
      · cases h
  | .null, _, _, h | .bool _, _, _, h | .int _, _, _, h | .float _, _, _, h | .string _, _, _, h
  | .sequence _, _, _, h => by simp [declaredType] at h

/-- Fields that came of the entries of a mapping have a name and a legible type. -/
theorem legible_of_mem_fieldsUnder :
    ∀ (entries : List (String × Value)) {context : String} {f : Field},
      .ok f ∈ fieldsUnder context entries → f.name.isEmpty = false ∧ f.type.Legible
  | [], _, _, h => by simp [fieldsUnder] at h
  | (k, v) :: rest, _, _, h => by
      rw [fieldsUnder] at h
      split at h
      · exact legible_of_mem_resolveFields v h
      · exact legible_of_mem_fieldsUnder rest h

/-- Fields that came of a list or a mapping of fields have a name and a legible type. -/
theorem legible_of_mem_resolveFields :
    ∀ (v : Value) {context : String} {f : Field},
      .ok f ∈ resolveFields context v → f.name.isEmpty = false ∧ f.type.Legible
  | .sequence items, _, _, h => by
      rw [resolveFields] at h
      exact legible_of_mem_listedFields items h
  | .mapping entries, _, _, h => by
      rw [resolveFields] at h
      exact legible_of_mem_keyedFields entries h
  | .null, _, _, h | .bool _, _, _, h | .int _, _, _, h | .float _, _, _, h
  | .string _, _, _, h => by simp [resolveFields] at h

/-- Listed fields that came of their entries have a name and a legible type. -/
theorem legible_of_mem_listedFields :
    ∀ (items : List Value) {context : String} {f : Field},
      .ok f ∈ listedFields context items → f.name.isEmpty = false ∧ f.type.Legible
  | [], _, _, h => by simp [listedFields] at h
  | v :: rest, _, _, h => by
      rw [listedFields] at h
      rcases List.mem_cons.mp h with heq | h
      · obtain ⟨hname, htype⟩ := fieldOutcome_eq_ok heq.symm
        refine ⟨hname, ?_⟩
        -- The entry declares a type for the field, or is itself the type.
        rcases Option.getD_eq_iff.mp htype with hdeclared | ⟨-, hresolved⟩
        · exact legible_of_declaredType v hdeclared
        · exact legible_of_resolve v hresolved
      · exact legible_of_mem_listedFields rest h

/-- Keyed fields that came of their entries have a name and a legible type. -/
theorem legible_of_mem_keyedFields :
    ∀ (entries : List (String × Value)) {context : String} {f : Field},
      .ok f ∈ keyedFields context entries → f.name.isEmpty = false ∧ f.type.Legible
  | [], _, _, h => by simp [keyedFields] at h
  | (name, v) :: rest, _, _, h => by
      rw [keyedFields] at h
      rcases List.mem_cons.mp h with heq | h
      · obtain ⟨hname, htype⟩ := fieldOutcome_eq_ok heq.symm
        refine ⟨hname, ?_⟩
        rcases Option.getD_eq_iff.mp htype with hdeclared | ⟨-, hresolved⟩
        · exact legible_of_declaredType v hdeclared
        · exact legible_of_resolve v hresolved
      · exact legible_of_mem_keyedFields rest h

end

/-- The notation of every type is readable. It is read as the type itself exactly if the type is
legible, and exactly the legible types are what some node is read as. -/
theorem notation_exact (context : String) (t : TypeExpr) :
    (∃ u, resolve context t.toCwl = .ok u ∧ (u = t ↔ t.Legible)) ∧
      ((∃ v, resolve context v = .ok t) ↔ t.Legible) := by
  have hwritten := resolve_toCwl context t
  have hread : t.reread = t ↔ t.Legible := by
    refine ⟨fun heq => ?_, reread_eq_self⟩
    rw [heq] at hwritten
    exact legible_of_resolve t.toCwl hwritten
  refine ⟨⟨t.reread, hwritten, hread⟩, ?_, fun hlegible => ?_⟩
  · rintro ⟨v, hv⟩
    exact legible_of_resolve v hv
  · rw [reread_eq_self hlegible] at hwritten
    exact ⟨t.toCwl, hwritten⟩

end TypeExpr

end CanonicalCwl
