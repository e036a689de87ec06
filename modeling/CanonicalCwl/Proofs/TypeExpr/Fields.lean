import CanonicalCwl.Proofs.TypeExpr.Grammar

/-!
# The Fields of Record Types

A record type has a field for every entry that has a name and the notation of a type, in order. The
other entries are left out, and what is wrong with them does not matter to the record.

- `TypeExpr.Dropped`, `TypeExpr.Becomes`: the entries that are left out, and what becomes of an
  entry.
- `TypeExpr.Gives`: the field that an entry gives.
- `TypeExpr.resolve_of_resolve`: what a node is the notation of does not depend on the context.
- `TypeExpr.reads_resolve`: what is read as a type, what is refused, and the fields of a record.
-/

namespace CanonicalCwl

open Result

namespace TypeExpr

variable {name : String} {f : Value}

/-! ## What becomes of a field -/

/-- The notation that a field has for its type. -/
def typeNode (f : Value) : Value := ((declaration? f).map (·.1)).getD f

/-- The field is left out of its record: it has no name or no type. -/
def Dropped (name : String) (f : Value) : Prop := name = "" ∨ ¬ Notation (typeNode f)

/-- What becomes of a field of a record. -/
inductive Becomes (context : String) : String × Value → Except Diagnostic Field → Prop
  | kept {name : String} {f : Value} {field : Field} (hname : name ≠ "")
      (htype : Notation (typeNode f)) (hfield : field.name = name) :
      Becomes context (name, f) (.ok field)
  | unnamed (f : Value) : Becomes context ("", f) (.error (.missingName context "field"))
  | untyped {name : String} {f w : Value} (hname : name ≠ "") (h : Fault (typeNode f) w) :
      Becomes context (name, f) (.error (unrecognized (fieldContext context name) w))

/-- The fields of a list or of a mapping, with their names. -/
def fieldEntries : Value → List (String × Value)
  | .sequence items => items.map fun f => ((f.text? "name").getD "", f)
  | .mapping entries => entries
  | _ => []

/-- What is reported when this becomes of the fields. -/
def errors (outcomes : List (Except Diagnostic Field)) : List Diagnostic :=
  outcomes.filterMap fun o =>
    match o with
    | .error d => some d
    | .ok _ => none

/-- What a field declares besides its type; nothing if it is the type itself. -/
def declaredRest (f : Value) : List String × Option Value :=
  ((declaration? f).map (·.2)).getD ([], none)

theorem getD_declaration? (f : Value) :
    (declaration? f).getD (f, [], none) = (typeNode f, declaredRest f) := by
  rw [typeNode, declaredRest]
  cases declaration? f <;> rfl

/-- What becomes of a field. -/
theorem becomes_outcome (context name : String) (f : Value) :
    Becomes context (name, f) (outcome context name f) := by
  rw [outcome_eq, getD_declaration?]
  by_cases hname : name = ""
  · subst hname
    exact .unnamed f
  rw [if_neg (by simpa using hname)]
  rcases notation_or_fault (typeNode f) with h | ⟨w, h⟩
  · obtain ⟨t, ht⟩ := resolve_of_notation h (fieldContext context name)
    simp only [ht, Except.map]
    exact .kept hname h rfl
  · simp only [resolve_of_fault h, Except.map]
    exact .untyped hname h

/-- The fields of a list or of a mapping are read one by one. -/
theorem resolveFields_eq_map (fields : Value) (h : fields.isScalar = false) (context : String) :
    resolveFields context fields = (fieldEntries fields).map fun e => outcome context e.1 e.2 := by
  cases fields with
  | sequence items =>
    rw [resolveFields, listedFields_eq_map, fieldEntries, List.map_map]
    rfl
  | mapping entries => rw [resolveFields, keyedFields_eq_map, fieldEntries]
  | _ => cases h

/-- A field that is left out gives no field. -/
theorem toOption_outcome_of_dropped (h : Dropped name f) (context : String) :
    (outcome context name f).toOption = none := by
  have hbecomes := becomes_outcome context name f
  generalize outcome context name f = o at hbecomes ⊢
  cases hbecomes with
  | kept hname htype => exact absurd h (not_or_intro hname (not_not_intro htype))
  | unnamed | untyped => rfl

/-! ## The fields of a record -/

instance (name : String) (f : Value) : Decidable (Dropped name f) :=
  inferInstanceAs (Decidable (_ ∨ _))

/-- The field that an entry of a record gives: it has the name of the entry and the type that is
given for it, and the documentation and the default if the entry declares them. -/
structure Gives (context : String) (entry : String × Value) (field : Field) : Prop where
  name : field.name = entry.1
  type : resolve (fieldContext context entry.1) (typeNode entry.2) = .ok field.type
  rest : (field.doc, field.default) = declaredRest entry.2

/-- The entries of the fields of a node, with their names. -/
def entriesOf (v : Value) : List (String × Value) := ((v.get? "fields").map fieldEntries).getD []

/-- The entries that are not left out. -/
def keptEntries (v : Value) : List (String × Value) :=
  (entriesOf v).filter fun e => !decide (Dropped e.1 e.2)

/-- The context of the fields of a record: a record with a name is a context of its own. -/
def recordContext (context name : String) : String := if name.isEmpty then context else name

/-- An entry with a name and the notation of a type gives a field. -/
theorem exists_gives_of_not_dropped (h : ¬ Dropped name f) (context : String) :
    ∃ field, outcome context name f = .ok field ∧ Gives context (name, f) field := by
  obtain ⟨hname, htype⟩ := not_or.mp h
  obtain ⟨type, htype⟩ := resolve_of_notation (not_not.mp htype) (fieldContext context name)
  refine ⟨⟨name, type, (declaredRest f).1, (declaredRest f).2⟩, ?_, rfl, htype, rfl⟩
  rw [outcome_eq, getD_declaration?, if_neg (by simpa using hname)]
  simp only [htype, Except.map]

/-- The entries that are not left out give fields, and the others give none. -/
theorem gives_filterMap (context : String) (entries : List (String × Value)) :
    List.Forall₂ (Gives context) (entries.filter fun e => !decide (Dropped e.1 e.2))
      ((entries.map fun e => outcome context e.1 e.2).filterMap Except.toOption) := by
  induction entries with
  | nil => exact .nil
  | cons e rest ih =>
    rw [List.map_cons]
    by_cases hdropped : Dropped e.1 e.2
    · rw [List.filter_cons_of_neg (by simpa using hdropped),
        List.filterMap_cons_none (toOption_outcome_of_dropped hdropped context)]
      exact ih
    · obtain ⟨field, houtcome, hgives⟩ := exists_gives_of_not_dropped hdropped context
      rw [List.filter_cons_of_pos (by simpa using hdropped), houtcome]
      exact .cons hgives ih

/-- The fields of a record come of the entries that are there. -/
theorem fieldsUnder_eq_map (context : String) (es : Mapping) :
    (fieldsUnder context es).filterMap Except.toOption =
      ((entriesOf (.mapping es)).map fun e => outcome context e.1 e.2).filterMap
        Except.toOption := by
  rw [fieldsUnder_eq, entriesOf, Value.get?_mapping]
  cases Entries.get? es "fields" with
  | none => rfl
  | some fields =>
    rw [Option.map_some, Option.map_some, Option.getD_some, Option.getD_some]
    -- What is neither a list nor a mapping of fields gives none.
    cases hscalar : fields.isScalar with
    | false => rw [resolveFields_eq_map fields hscalar]
    | true => cases fields <;> first | rfl | cases hscalar

/-- A record has a field for each entry that is not left out. -/
theorem exists_gives_of_record {v : Value} (htype : v.text? "type" = some "record")
    (context : String) :
    ∃ fields, resolve context v = .ok (record ((v.text? "name").getD "") fields) ∧
      List.Forall₂ (Gives (recordContext context ((v.text? "name").getD ""))) (keptEntries v)
        fields := by
  cases v with
  | mapping es =>
    refine ⟨_, ?_, gives_filterMap _ _⟩
    have hword : (Entries.get? es "type").bind Value.string? = some "record" := htype
    rw [resolve, hword, ← fieldsUnder_eq_map]
    rfl
  | _ => cases htype

/-! ## Contexts -/

/-- The notation that a field has for its type is no larger than the field. -/
theorem sizeOf_typeNode_le (f : Value) : sizeOf (typeNode f) ≤ sizeOf f := by
  cases hdeclared : declaration? f with
  | none => simp [typeNode, hdeclared]
  | some d =>
    rw [typeNode, hdeclared, Option.map_some, Option.getD_some]
    cases f with
    | mapping es =>
      rw [declaration?] at hdeclared
      split at hdeclared
      · cases hdeclared
      · obtain ⟨type, htype, rfl⟩ := Option.map_eq_some_iff.mp hdeclared
        have hsize := Value.sizeOf_lt_of_entries_get? htype
        simp only [Value.mapping.sizeOf_spec]
        omega
    | _ => cases hdeclared

/-- The notation that a field of a record has for its type is smaller than the record. -/
theorem sizeOf_typeNode_lt {es : Mapping} {e : String × Value} (he : e ∈ entriesOf (.mapping es)) :
    sizeOf (typeNode e.2) < sizeOf es := by
  obtain ⟨name, f⟩ := e
  have hnode : sizeOf (typeNode f) ≤ sizeOf f := sizeOf_typeNode_le f
  show sizeOf (typeNode f) < sizeOf es
  rw [entriesOf, Value.get?_mapping] at he
  cases hfields : Entries.get? es "fields" with
  | none => simp [hfields] at he
  | some fields =>
    have hsize := Value.sizeOf_lt_of_entries_get? hfields
    rw [hfields, Option.map_some, Option.getD_some] at he
    have hfield : sizeOf f < sizeOf fields := by
      cases fields with
      | sequence items =>
        obtain ⟨f', hf, heq⟩ := List.mem_map.mp he
        obtain ⟨-, rfl⟩ := Prod.mk.inj heq
        have := List.sizeOf_lt_of_mem hf
        simp only [Value.sequence.sizeOf_spec]
        omega
      | mapping entries =>
        have := List.sizeOf_lt_of_mem (show (name, f) ∈ entries from he)
        simp only [Value.mapping.sizeOf_spec, Prod.mk.sizeOf_spec] at this ⊢
        omega
      | _ => cases he
    omega

/-- A notation stands for the same type in every context. -/
theorem resolve_of_resolve {context : String} (context' : String) {v : Value} {t : TypeExpr}
    (h : resolve context v = .ok t) : resolve context' v = .ok t := by
  match v with
  | .string s => rwa [resolve] at h ⊢
  | .sequence members =>
    rw [resolve, resolveAll_eq_mapM, bind_eq_ok_iff] at h ⊢
    obtain ⟨ts, hts, h⟩ := h
    exact ⟨ts, mapM_eq_ok_of_forall_mem (fun v _ _ => resolve_of_resolve context') hts, h⟩
  | .mapping es =>
    by_cases harray : (Value.mapping es).text? "type" = some "array"
    · rw [resolve_array harray, Value.get?_mapping] at h ⊢
      cases hitems : Entries.get? es "items" with
      | none =>
        rw [hitems] at h
        cases h
      | some items =>
        have hsize := Value.sizeOf_lt_of_entries_get? hitems
        rw [hitems] at h
        obtain ⟨t, ht, rfl⟩ := map_eq_ok_iff.mp h
        exact map_eq_ok_iff.mpr ⟨t, resolve_of_resolve context' ht, rfl⟩
    by_cases hrecord : (Value.mapping es).text? "type" = some "record"
    · obtain ⟨fields, hfields, hgives⟩ := exists_gives_of_record hrecord context
      obtain ⟨fields', hfields', hgives'⟩ := exists_gives_of_record hrecord context'
      have hsame : fields = fields' := by
        refine forall₂_unique (fun e he field field' hfield hfield' => ?_) hgives hgives'
        -- The notation of the type of an entry is smaller than the record.
        have hsize := sizeOf_typeNode_lt (List.mem_of_mem_filter he)
        have htype := (resolve_of_resolve _ hfield.type).symm.trans hfield'.type
        obtain ⟨hdoc, hdefault⟩ := Prod.mk.inj (hfield.rest.trans hfield'.rest.symm)
        exact FieldOf.ext (hfield.name.trans hfield'.name.symm) (Except.ok.inj htype) hdoc hdefault
      rw [hfields, hsame] at h
      rwa [hfields']
    by_cases henum : (Value.mapping es).text? "type" = some "enum"
    · rw [resolve_enum henum] at h ⊢
      split at h
      · exact h
      · cases h
    rw [resolve_of_type_ne rfl rfl fun word hword => ?_] at h
    · cases h
    · simp only [List.mem_cons, List.not_mem_nil, or_false] at hword
      rcases hword with rfl | rfl | rfl <;> assumption
  | .null | .bool _ | .int _ | .float _ => cases h
termination_by sizeOf v

/-- What reading a node as a type amounts to. -/
structure Reads (context : String) (v : Value) : Prop where
  /-- Exactly the notations of types are read as types. -/
  accepted : (∃ t, resolve context v = .ok t) ↔ Notation v
  /-- Of any other node the first node at fault is reported, by its kind, in the given context. -/
  refused : ∀ d, resolve context v = .error d ↔
    ∃ w, FirstAtFault v w ∧ d = .unrecognizedNode context w.kind
  /-- A record is read whatever its fields are. It has those that have a name and the notation of a
  type, in order. -/
  fields : v.text? "type" = some "record" →
    ∃ fields, resolve context v = .ok (record ((v.text? "name").getD "") fields) ∧
      List.Forall₂ (Gives (recordContext context ((v.text? "name").getD ""))) (keptEntries v)
        fields

/-- Exactly the notations of types are read as types, of any other node the first node at fault is
reported, and records leave out what is wrong with their fields. -/
theorem reads_resolve (context : String) (v : Value) : Reads context v where
  accepted := exists_resolve_eq_ok_iff
  refused d := by
    rw [resolve_eq_error_iff]
    simp only [fault_iff_firstAtFault, unrecognized]
  fields htype := exists_gives_of_record htype context

end TypeExpr

end CanonicalCwl
