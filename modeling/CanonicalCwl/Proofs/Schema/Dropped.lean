import CanonicalCwl.Proofs.Schema.Registry
import CanonicalCwl.Proofs.TypeExpr.Fields

/-!
# Fields That Are Dropped

A record leaves out the fields that have no name or no type. If the record is a node of the
schema, each field that it leaves out is reported, once and in order. If it is written in place of
a type, nothing is reported: the resolution of the schema is the same as without these fields.

- `TypeExpr.LeavesOut`: a record type loses a field that is left out anyway.
- `Schema.Resolution.reports_ofNodes`: what is reported of the fields of a schema.
-/

namespace CanonicalCwl

namespace TypeExpr

/-! ## Leaving out a field of a record type -/

/-- A record type loses a field that is left out anyway. -/
inductive LeavesOut : Value → Value → Prop
  | listed (before after : Mapping) (fields fields' : List Value) {f : Value}
      (h : Dropped ((f.text? "name").getD "") f) :
      LeavesOut (.mapping (before ++ ("fields", .sequence (fields ++ f :: fields')) :: after))
        (.mapping (before ++ ("fields", .sequence (fields ++ fields')) :: after))
  | keyed (before after fields fields' : Mapping) {name : String} {f : Value}
      (h : Dropped name f) :
      LeavesOut
        (.mapping (before ++ ("fields", .mapping (fields ++ (name, f) :: fields')) :: after))
        (.mapping (before ++ ("fields", .mapping (fields ++ fields')) :: after))

/-- This makes no difference to the type. -/
theorem harmless_leavesOut : Harmless LeavesOut := by
  constructor
  case resolve =>
    intro v v' h context
    cases h with
    | listed before after fields fields' h | keyed before after fields fields' h =>
      refine resolve_mapping_congr context (by simp [Entries.get?_cons])
        (by simp [Entries.get?_cons]) fun context => ?_
      rw [fieldsUnder_eq, fieldsUnder_eq]
      cases hget : Entries.get? before "fields" with
      -- Earlier fields are those that count, and so nothing has changed.
      | some v => simp [hget]
      | none =>
        simp [hget, Entries.get?_cons, resolveFields_eq_map (.sequence _) rfl,
          resolveFields_eq_map (.mapping _) rfl, fieldEntries, toOption_outcome_of_dropped h,
          -Value.text?_eq]
  case declaration =>
    intro v v' h
    cases h <;> simp [declaration?, isTypeMapping, Entries.contains, Entries.get?_cons]
  case name =>
    intro v v' h
    cases h <;> simp [Value.get?, Entries.get?_cons]
  case noWord =>
    intro v v' h
    cases h <;> exact ⟨noWord_of_string?_eq_none rfl, noWord_of_string?_eq_none rfl⟩

end TypeExpr

namespace Schema

open Inheritance TypeExpr

namespace Node

/-- In the type of a field of a record node a part is changed. -/
inductive InsideNode (R : Value → Value → Prop) : Value → Value → Prop
  | listed (before after : Mapping) (fields fields' : List Value) {f f' : Value}
      (h : InsideField R f f') :
      InsideNode R (.mapping (before ++ ("fields", .sequence (fields ++ f :: fields')) :: after))
        (.mapping (before ++ ("fields", .sequence (fields ++ f' :: fields')) :: after))
  | keyed (before after fields fields' : Mapping) (name : String) {f f' : Value}
      (h : InsideField R f f') :
      InsideNode R
        (.mapping (before ++ ("fields", .mapping (fields ++ (name, f) :: fields')) :: after))
        (.mapping (before ++ ("fields", .mapping (fields ++ (name, f') :: fields')) :: after))

/-- A node is read by what its keys hold and by what becomes of its fields. -/
theorem read_congr {es es' : Mapping}
    (hkeys : ∀ key ≠ "fields", Entries.get? es key = Entries.get? es' key)
    (hfields : ∀ context, fieldsUnder context es = fieldsUnder context es') :
    read (.mapping es) = read (.mapping es') := by
  have htext (key : String) (hkey : key ≠ "fields") :
      (Value.mapping es).text? key = (Value.mapping es').text? key := by
    simp only [Value.text?, Value.get?, hkeys key hkey]
  -- The word for the type decides which keys are looked up; `fields` is looked up for a record.
  have hrecord : readRecord es = readRecord es' := by
    funext name
    simp only [readRecord, hfields, hkeys "extends" (by decide), hkeys "doc" (by decide)]
  have henum : readEnum es = readEnum es' := by
    funext name
    rw [readEnum, readEnum, hkeys "symbols" (by decide), hkeys "doc" (by decide)]
    rfl
  simp only [read, htext "type" (by decide), htext "name" (by decide)]
  generalize (Value.mapping es').text? "type" = type
  generalize (Value.mapping es').text? "name" = name
  by_cases htype : type = some "record"
  · subst htype
    cases name with
    | none => rfl
    | some name => exact congrFun hrecord (localName name)
  by_cases htype' : type = some "enum"
  · subst htype'
    cases name with
    | none => rfl
    | some name => exact congrFun henum (localName name)
  simp [htype, htype', unrecognized, Value.kind]

/-- A change that makes no difference where it stands makes none to the node. -/
theorem read_eq_of_insideNode {R : Value → Value → Prop} (hR : Harmless R) {node node' : Value}
    (h : InsideNode R node node') : read node = read node' := by
  cases h with
  | listed before after fields fields' h =>
    obtain ⟨hname, houtcome⟩ := outcome_eq_of_insideField hR h
    exact read_congr (fun key hkey => by simp [Entries.get?_cons, hkey.symm])
      (fieldsUnder_replace_listed before after fields fields' hname houtcome)
  | keyed before after fields fields' name h =>
    obtain ⟨-, houtcome⟩ := outcome_eq_of_insideField hR h
    exact read_congr (fun key hkey => by simp [Entries.get?_cons, hkey.symm])
      (fieldsUnder_replace_keyed before after fields fields' name houtcome)

/-- Of the fields of a record node each one is kept or reported. -/
theorem exists_becomes {node fields : Value} {name : String}
    (htype : node.text? "type" = some "record") (hname : node.text? "name" = some name)
    (hfields : node.get? "fields" = some fields) (hscalar : fields.isScalar = false) :
    ∃ outcomes, List.Forall₂ (Becomes (localName name)) (fieldEntries fields) outcomes ∧
      Node.fields node = outcomes.filterMap Except.toOption ∧
      (read node).diagnostics = errors outcomes := by
  cases node with
  | mapping es =>
    have hname' : ((Value.mapping es).text? "name").map localName = some (localName name) := by
      rw [hname, Option.map_some]
    have hfields' : Entries.get? es "fields" = some fields := hfields
    have houtcomes : fieldsUnder (localName name) es =
        (fieldEntries fields).map fun e => outcome (localName name) e.1 e.2 := by
      rw [fieldsUnder_eq, hfields', Option.map_some, Option.getD_some,
        resolveFields_eq_map fields hscalar]
    refine ⟨fieldsUnder (localName name) es, ?_, fields_of_record htype hname', ?_⟩
    · rw [houtcomes, List.forall₂_map_right_iff, List.forall₂_same]
      exact fun e _ => becomes_outcome _ _ _
    · simp only [read, htype, hname, Option.map_some]
      rfl
  | _ => cases htype

end Node

namespace Resolution

/-- What a resolution reports of the fields that are written in the nodes of a schema. -/
structure Reports (nodes : List Value) (res : Resolution) : Prop where
  /-- What is reported of the nodes comes in their order and before all that is reported of the
  relation between records. -/
  order : ∃ rest, (∀ d ∈ rest, ¬ d.OfNode) ∧
    res.diagnostics = (nodes.flatMap fun node => (Node.read node).diagnostics) ++ rest
  /-- Each field of a record node is kept if it has a name and a type, and otherwise reported, once
  and in order. -/
  fields : ∀ node ∈ nodes, ∀ name fields, node.text? "type" = some "record" →
    node.text? "name" = some name → node.get? "fields" = some fields → fields.isScalar = false →
    ∃ outcomes, List.Forall₂ (Becomes (localName name)) (fieldEntries fields) outcomes ∧
      Node.fields node = outcomes.filterMap Except.toOption ∧
      (Node.read node).diagnostics = errors outcomes
  /-- The fields that are left out by a record type inside of the type of a field make no
  difference, so that nothing is reported of them. -/
  inside : ∀ before node node' after, nodes = before ++ node :: after →
    Node.InsideNode LeavesOut node node' → ofNodes (before ++ node' :: after) = res

/-- The resolution of schema nodes reports the fields that record nodes leave out, and nothing of
those that are left out by record types. -/
theorem reports_ofNodes (nodes : List Value) : Reports nodes (ofNodes nodes) := by
  constructor
  case order =>
    refine ⟨_, ?_, diagnostics_ofNodes [] nodes⟩
    intro d hd
    obtain ⟨skip, -, rfl⟩ := List.mem_map.mp hd
    cases skip <;> exact id
  case fields =>
    intro node _ name fields htype hname hfields hscalar
    exact Node.exists_becomes htype hname hfields hscalar
  case inside =>
    intro before node node' after hnodes h
    subst hnodes
    have hobserve (s : Survey) : s.observe node' = s.observe node := by
      rw [Survey.observe, Survey.observe, Node.read_eq_of_insideNode harmless_leavesOut h]
    rw [ofNodes, ofNodes, Survey.ofNodes, Survey.ofNodes, List.foldl_append, List.foldl_append,
      List.foldl_cons, List.foldl_cons, hobserve]

/-- A record node with one field, whose type is a record with the given fields. -/
def outerNode (inner : List Value) : Value :=
  .mapping [("type", .string "record"), ("name", .string "Outer"),
    ("fields", .sequence [.mapping [("name", .string "inner"),
      ("type", .mapping [("type", .string "record"), ("name", .string "Inner"),
        ("fields", .sequence inner)])]])]

/-- A field without a type. -/
def untypedField : Value := .mapping [("name", .string "bad"), ("type", .int 7)]

/-- A field with a type. -/
def typedField : Value := .mapping [("name", .string "ok"), ("type", .string "int")]

/-- The inner record leaves out its field without a type, and nothing is reported. -/
theorem diagnostics_outerNode :
    Dropped "bad" untypedField ∧
      Node.InsideNode LeavesOut (outerNode [untypedField, typedField]) (outerNode [typedField]) ∧
      ((ofNodes [outerNode [untypedField, typedField]]).registry.fields "Inner").map (·.name) =
        ["ok"] ∧
      (ofNodes [outerNode [untypedField, typedField]]).diagnostics = [] := by
  have hdropped : Dropped "bad" untypedField := by
    refine .inr fun h => ?_
    rw [show typeNode untypedField = .int 7 by decide +kernel] at h
    cases h with
    | array htype | record htype | enum htype => cases htype
  have hdeclared :
      declaredRecords (Survey.ofNodes [outerNode [untypedField, typedField]]).registry =
        [("Inner", ⟨"Inner", [⟨"ok", .named "int", [], none⟩], [], []⟩),
          ("Outer", ⟨"Outer", [⟨"inner", .named "Inner", [], none⟩], [], []⟩)] := by
    decide +kernel
  refine ⟨hdropped, ?_, ?_, ?_⟩
  · exact .listed [("type", .string "record"), ("name", .string "Outer")] [] [] []
      (.declared [("name", .string "inner")] []
        (.here (.listed [("type", .string "record"), ("name", .string "Inner")] [] [] [typedField]
          hdropped)))
  · rw [ofNodes, fields_ofSurvey (Survey.proper_ofNodes _), hdeclared]
    simp [search, flatten, Entries.get?_cons, Entries.keys, Entries.insert, Progress.empty,
      Progress.finish]
  · have hread : (Node.read (outerNode [untypedField, typedField])).diagnostics = [] := by
      decide +kernel
    rw [← List.nil_append [outerNode _], diagnostics_ofNodes, List.nil_append, hdeclared,
      List.flatMap_singleton, hread]
    simp [search, flatten, Entries.get?_cons, Entries.keys, Entries.insert, Progress.empty,
      Progress.finish, Survey.ofNodes, Survey.empty]

end Resolution

end Schema

end CanonicalCwl
