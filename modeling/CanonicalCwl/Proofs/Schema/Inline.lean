import CanonicalCwl.Schema.Survey
import Mathlib.Data.List.Induction

/-!
# Where Definitions Stand

The nodes of a schema, the fields of a node and the types inside a type make up a tree, and every
definition of the schema stands at a place of it. The definitions are collected in post-order:
those inside of a definition before it, and those of an earlier field or node before those of a
later one. A record without a name hides what is inside of it.

- `Place.Before`: the post-order of places.
- `Lists.find?_eq_some_iff`: a search through what is listed in post-order finds what stands
  first.
- `TypeExpr.lists_inlineDefinitions`, `Schema.lists_definitions`: the definitions inside a type,
  and those of a schema, are listed in post-order.
- `Schema.Node.Declares`: the records and enumerations that nodes declare.
-/

namespace CanonicalCwl

/-! ## Places in a tree -/

/-- A place inside a tree: the positions at which to go down, the outermost one first. -/
abbrev Place := List ℕ

namespace Place

variable {α β : Type}

/-- The post-order of places. What is inside of a place comes before it, and what is inside of
an earlier part before what is inside of a later one. -/
def Before : Place → Place → Prop
  | [], _ => False
  | _ :: _, [] => True
  | i :: p, j :: q => i < j ∨ i = j ∧ Before p q

/-- Of two places at most one comes before the other. -/
theorem Before.asymm : ∀ {p q : Place}, p.Before q → ¬ q.Before p
  | [], _, h, _ => h
  | _ :: _, [], _, h' => h'
  | i :: p, j :: q, h, h' => by
      rcases h with hlt | ⟨rfl, h⟩
      · rcases h' with hgt | ⟨rfl, -⟩
        · exact Nat.lt_asymm hlt hgt
        · exact Nat.lt_irrefl _ hlt
      · rcases h' with hgt | ⟨-, h'⟩
        · exact Nat.lt_irrefl _ hgt
        · exact h.asymm h'

/-- What stands in a tree, from what stands at its root and what stands in each of its parts. -/
def tree (root : Option α) (parts : List β) (item : β → Place → Option α) : Place → Option α
  | [] => root
  | i :: place => parts[i]?.bind (item · place)

end Place

open Place

/-- The list pairs what stands in a tree with its places, in post-order. -/
structure Postorder {α : Type} (item : Place → Option α) (placed : List (Place × α)) : Prop where
  sorted : placed.Pairwise fun a b => a.1.Before b.1
  mem_iff : ∀ place x, (place, x) ∈ placed ↔ item place = some x

/-- What comes first, in post-order, of what stands in a tree and satisfies a condition. -/
structure IsFirst {α : Type} (item : Place → Option α) (p : α → Prop) (place : Place) (x : α) :
    Prop where
  stands : item place = some x
  satisfies : p x
  before : ∀ other y, item other = some y → p y → other = place ∨ place.Before other

/-- The list holds what stands in a tree, in post-order. -/
def Lists {α : Type} (item : Place → Option α) (xs : List α) : Prop :=
  ∃ placed, Postorder item placed ∧ placed.map Prod.snd = xs

namespace Postorder

variable {α β : Type} {root : Option α} {parts : List β} {item : β → Place → Option α}
  {before last : List (Place × α)}

/-- There is nothing in a tree without parts and without a root. -/
theorem nil : Postorder (tree none ([] : List β) item) [] := by
  refine ⟨.nil, fun place x => ?_⟩
  cases place <;> simp [tree]

/-- What stands in a further part comes after what stands in the parts before it. -/
theorem concat {b : β} (hbefore : Postorder (tree none parts item) before)
    (hlast : Postorder (item b) last) :
    Postorder (tree none (parts ++ [b]) item)
      (before ++ last.map fun e => (parts.length :: e.1, e.2)) := by
  constructor
  case sorted =>
    rw [List.pairwise_append, List.pairwise_map]
    refine ⟨hbefore.sorted, hlast.sorted.imp fun h => .inr ⟨rfl, h⟩, ?_⟩
    intro e he e' he'
    obtain ⟨last, -, rfl⟩ := List.mem_map.mp he'
    -- What stands before does so in a part that is not the last one.
    have hplaced := (hbefore.mem_iff e.1 e.2).mp he
    match hplace : e.1 with
    | [] => simp [hplace, tree] at hplaced
    | i :: place =>
      rw [hplace, tree] at hplaced
      obtain ⟨part, hpart, -⟩ := Option.bind_eq_some_iff.mp hplaced
      exact .inl (List.getElem?_eq_some_iff.mp hpart).1
  case mem_iff =>
    intro place x
    rw [List.mem_append, hbefore.mem_iff]
    match place with
    | [] => simp [tree]
    | i :: place =>
      have hmem : (i :: place, x) ∈ last.map (fun e => (parts.length :: e.1, e.2)) ↔
          i = parts.length ∧ item b place = some x := by
        rw [← hlast.mem_iff, List.mem_map]
        constructor
        · rintro ⟨e, he, heq⟩
          cases heq
          exact ⟨rfl, he⟩
        · rintro ⟨rfl, he⟩
          exact ⟨(place, x), he, rfl⟩
      rw [hmem, tree, tree]
      rcases Nat.lt_trichotomy i parts.length with hlt | rfl | hgt
      · rw [List.getElem?_append_left hlt]
        simp [Nat.ne_of_lt hlt]
      · simp
      · have hnone : (parts ++ [b])[i]? = none := List.getElem?_eq_none (by simp; omega)
        rw [hnone, List.getElem?_eq_none (Nat.le_of_lt hgt)]
        simp [Nat.ne_of_gt hgt]

/-- What stands at the root comes after what stands in the parts. -/
theorem withRoot (h : Postorder (tree none parts item) before) :
    Postorder (tree root parts item) (before ++ root.toList.map ([], ·)) := by
  constructor
  case sorted =>
    rw [List.pairwise_append]
    refine ⟨h.sorted, by cases root <;> simp, fun e he e' he' => ?_⟩
    obtain ⟨x, -, rfl⟩ := List.mem_map.mp he'
    have hplaced := (h.mem_iff e.1 e.2).mp he
    match hplace : e.1 with
    | [] => simp [hplace, tree] at hplaced
    | i :: place => trivial
  case mem_iff =>
    intro place x
    rw [List.mem_append, h.mem_iff]
    cases place <;> simp [tree]

end Postorder

namespace Lists

variable {α β : Type} {root : Option α} {parts : List β} {item : β → Place → Option α}
  {list : β → List α}

/-- What stands in the parts of a tree is listed part by part. -/
theorem flatMap (h : ∀ b ∈ parts, Lists (item b) (list b)) :
    Lists (tree none parts item) (parts.flatMap list) := by
  induction parts using List.reverseRecOn with
  | nil => exact ⟨[], .nil, rfl⟩
  | append_singleton parts b ih =>
    obtain ⟨before, hbefore, heq⟩ := ih fun b hb => h b (List.mem_append_left _ hb)
    obtain ⟨last, hlast, heq'⟩ := h b (by simp)
    refine ⟨_, hbefore.concat hlast, ?_⟩
    rw [List.map_append, heq, List.map_map, List.flatMap_append, List.flatMap_singleton, ← heq']
    rfl

/-- What stands in a tree is listed part by part, and what stands at its root at last. -/
theorem withRoot (h : ∀ b ∈ parts, Lists (item b) (list b)) :
    Lists (tree root parts item) (parts.flatMap list ++ root.toList) := by
  obtain ⟨placed, hplaced, heq⟩ := flatMap h
  refine ⟨_, hplaced.withRoot, ?_⟩
  rw [List.map_append, heq]
  simp [Function.comp_def]

/-- What is listed stands at a place of the tree. -/
theorem mem_iff {item : Place → Option α} {xs : List α} (h : Lists item xs) {x : α} :
    x ∈ xs ↔ ∃ place, item place = some x := by
  obtain ⟨placed, hplaced, rfl⟩ := h
  rw [List.mem_map]
  constructor
  · rintro ⟨e, he, rfl⟩
    exact ⟨e.1, (hplaced.mem_iff e.1 e.2).mp he⟩
  · rintro ⟨place, hplace⟩
    exact ⟨(place, x), (hplaced.mem_iff place x).mpr hplace, rfl⟩

/-- What a search through the list finds stands first. -/
theorem exists_isFirst {item : Place → Option α} {xs : List α} (h : Lists item xs)
    {p : α → Bool} {x : α} (hx : xs.find? p = some x) :
    ∃ place, IsFirst item (fun y => p y = true) place x := by
  obtain ⟨placed, hplaced, rfl⟩ := h
  rw [List.find?_map, Option.map_eq_some_iff] at hx
  obtain ⟨⟨place, x⟩, hfind, rfl⟩ := hx
  obtain ⟨hpx, before, after, rfl, hbefore⟩ := List.find?_eq_some_iff_append.mp hfind
  refine ⟨place, (hplaced.mem_iff place x).mp (by simp), hpx, fun other y hother hpy => ?_⟩
  rcases List.mem_append.mp ((hplaced.mem_iff other y).mpr hother) with hmem | hmem
  · -- Nothing before it satisfies the condition.
    simpa [hpy] using hbefore _ hmem
  · rcases List.mem_cons.mp hmem with heq | hmem
    · exact .inl (congrArg Prod.fst heq)
    · have hsorted := (List.pairwise_append.mp hplaced.sorted).2.1
      exact .inr (List.rel_of_pairwise_cons hsorted hmem)

/-- A search through the list finds exactly what stands first. -/
theorem find?_eq_some_iff {item : Place → Option α} {xs : List α} (h : Lists item xs)
    {p : α → Bool} {x : α} :
    xs.find? p = some x ↔ ∃ place, IsFirst item (fun y => p y = true) place x := by
  refine ⟨h.exists_isFirst, ?_⟩
  rintro ⟨place, hfirst⟩
  obtain ⟨y, hy⟩ := Option.isSome_iff_exists.mp
    (List.find?_isSome.mpr ⟨x, h.mem_iff.mpr ⟨place, hfirst.stands⟩, hfirst.satisfies⟩)
  obtain ⟨other, hother⟩ := h.exists_isFirst hy
  -- Each of the two is at the place of the other or before it.
  obtain rfl : other = place := by
    rcases hfirst.before other y hother.stands hother.satisfies with heq | hlt
    · exact heq
    · rcases hother.before place x hfirst.stands hfirst.satisfies with heq | hgt
      · exact heq.symm
      · exact absurd hgt hlt.asymm
  rw [hy, ← hother.stands, hfirst.stands]

end Lists

/-! ## Definitions inside a type -/

namespace TypeExpr

open Schema

/-- The types that are written inside of a type. What is inside of a record without a name stays
there and does not count. -/
def parts : TypeExpr → List TypeExpr
  | named _ | enum _ _ => []
  | array items => [items]
  | union members => members
  | record name fields => if name.isEmpty then [] else fields.map (·.type)

/-- The definition that a type is, if it is a record or an enumeration with a name. -/
def definition? : TypeExpr → Option Definition
  | named _ | array _ | union _ => none
  | record name fields =>
      if name.isEmpty then none else some (.record ⟨localName name, fields.map liftedField, [], []⟩)
  | enum name symbols => if name.isEmpty then none else some (.enum ⟨localName name, symbols, []⟩)

/-- The definition that stands at a place inside a type. -/
def definitionAt : TypeExpr → Place → Option Definition
  | t, [] => t.definition?
  | t, i :: place => t.parts[i]?.bind (definitionAt · place)

theorem definitionAt_eq_tree (t : TypeExpr) :
    t.definitionAt = tree t.definition? t.parts definitionAt := by
  funext place
  cases place <;> rfl

theorem inlineAll_eq_flatMap (ts : List TypeExpr) :
    inlineAll ts = ts.flatMap inlineDefinitions := by
  induction ts with
  | nil => rfl
  | cons t rest ih => rw [inlineAll, ih, List.flatMap_cons]

theorem inlineFields_eq_flatMap (fields : List Field) :
    inlineFields fields = (fields.map (·.type)).flatMap inlineDefinitions := by
  induction fields with
  | nil => rfl
  | cons f rest ih => rw [inlineFields, ih, List.map_cons, List.flatMap_cons]

/-- The definitions inside a type are those of its parts and then itself. -/
theorem inlineDefinitions_eq (t : TypeExpr) :
    t.inlineDefinitions = t.parts.flatMap inlineDefinitions ++ t.definition?.toList := by
  cases t with
  | named name => rfl
  | array items => simp [inlineDefinitions, parts, definition?]
  | union members => simp [inlineDefinitions, parts, definition?, inlineAll_eq_flatMap]
  | record name fields =>
    rw [inlineDefinitions, parts, definition?]
    split
    · rfl
    · rw [inlineFields_eq_flatMap]
      rfl
  | enum name symbols =>
    rw [inlineDefinitions, parts, definition?]
    split <;> rfl

/-- The definitions inside a type are listed if those inside of its parts are. -/
theorem lists_of_parts {t : TypeExpr}
    (h : ∀ part ∈ t.parts, Lists part.definitionAt part.inlineDefinitions) :
    Lists t.definitionAt t.inlineDefinitions := by
  rw [definitionAt_eq_tree, inlineDefinitions_eq]
  exact Lists.withRoot h

mutual

/-- The definitions inside a type are listed in post-order. -/
theorem lists_inlineDefinitions : ∀ t : TypeExpr, Lists t.definitionAt t.inlineDefinitions
  | named name => lists_of_parts (by simp [parts])
  | enum name symbols => lists_of_parts (by simp [parts])
  | array items => lists_of_parts fun part hpart =>
      (List.mem_singleton.mp hpart).symm ▸ lists_inlineDefinitions items
  | union members => lists_of_parts (lists_of_mem members)
  | record name fields => lists_of_parts fun part hpart => by
      rw [parts] at hpart
      split at hpart
      · cases hpart
      · exact lists_of_mem_types fields part hpart

/-- So are those inside the members of a union. -/
theorem lists_of_mem :
    ∀ ts : List TypeExpr, ∀ t ∈ ts, Lists t.definitionAt t.inlineDefinitions
  | [], _, ht => nomatch ht
  | t :: rest, u, hu => (List.mem_cons.mp hu).elim
      (fun heq => heq ▸ lists_inlineDefinitions t) (lists_of_mem rest u)

/-- So are those inside the types of fields. -/
theorem lists_of_mem_types :
    ∀ fields : List (FieldOf TypeExpr), ∀ t ∈ fields.map (·.type),
      Lists t.definitionAt t.inlineDefinitions
  | [], _, ht => nomatch ht
  | ⟨_, t, _, _⟩ :: rest, u, hu => (List.mem_cons.mp hu).elim
      (fun heq => heq ▸ lists_inlineDefinitions t) (lists_of_mem_types rest u)

end

end TypeExpr

/-! ## Definitions of a schema -/

namespace Schema

namespace Node

/-- The fields that a record node keeps, as they are written. -/
def fields (node : Value) : List Field :=
  match node, node.text? "type", (node.text? "name").map localName with
  | .mapping entries, some "record", some name =>
      (TypeExpr.fieldsUnder name entries).filterMap Except.toOption
  | _, _, _ => []

/-- What a node declares: a record or an enumeration that has a name and, if an enumeration,
nothing but texts as its symbols. -/
inductive Declares : Value → Definition → Prop
  | record {entries : Mapping} {name : String} :
      (Value.mapping entries).text? "type" = some "record" →
      (Value.mapping entries).text? "name" = some name →
        Declares (.mapping entries) (.record
          { name := localName name
            fields := (fields (.mapping entries)).map TypeExpr.liftedField
            parents := parents (Entries.get? entries "extends")
            doc := docTexts (Entries.get? entries "doc") })
  | enum {entries : Mapping} {name : String} {symbols : List String} :
      (Value.mapping entries).text? "type" = some "enum" →
      (Value.mapping entries).text? "name" = some name →
      allStrings? (Entries.get? entries "symbols") = some symbols →
        Declares (.mapping entries)
          (.enum ⟨localName name, symbols, docTexts (Entries.get? entries "doc")⟩)

theorem fields_of_record {entries : Mapping} {name : String}
    (htype : (Value.mapping entries).text? "type" = some "record")
    (hname : ((Value.mapping entries).text? "name").map localName = some name) :
    fields (.mapping entries) =
      (TypeExpr.fieldsUnder name entries).filterMap Except.toOption := by
  simp only [fields, htype, hname]

/-- A node that is no record with a name keeps no fields. -/
theorem fields_eq_nil {node : Value}
    (h : ∀ entries name, node = .mapping entries → node.text? "type" = some "record" →
      (node.text? "name").map localName ≠ some name) : fields node = [] := by
  rw [fields.eq_def]
  split
  next htype hname => exact absurd hname (h _ _ rfl htype)
  next => rfl

/-- A node is refused, or it is read as what it declares and what the types of its fields hold. -/
theorem read_cases (node : Value) :
    (∃ d, Declares node d ∧ (read node).declared = some d ∧
      (read node).inline = TypeExpr.inlineFields (fields node)) ∨
    ∃ d, read node = refused d ∧ fields node = [] := by
  simp only [read]
  split
  case h_1 entries name htype hname =>
    have hfields := fields_of_record htype hname
    obtain ⟨written, hwritten, rfl⟩ := Option.map_eq_some_iff.mp hname
    refine .inl ⟨_, .record htype hwritten, ?_, ?_⟩
    · rw [hfields]
      rfl
    · rw [hfields]
      rfl
  case h_2 htype hname =>
    refine .inr ⟨_, rfl, fields_eq_nil fun _ _ _ _ hsome => ?_⟩
    exact absurd (hname.symm.trans hsome) (by simp)
  case h_3 entries name htype hname =>
    have hfields : fields (.mapping entries) = [] :=
      fields_eq_nil fun _ _ _ hrecord => absurd (htype.symm.trans hrecord) (by decide)
    obtain ⟨written, hwritten, rfl⟩ := Option.map_eq_some_iff.mp hname
    rw [readEnum, hfields]
    split
    next symbols hsymbols => exact .inl ⟨_, .enum htype hwritten hsymbols, rfl, rfl⟩
    next => exact .inr ⟨_, rfl, rfl⟩
  case h_4 htype hname =>
    refine .inr ⟨_, rfl, fields_eq_nil fun _ _ _ hrecord => ?_⟩
    exact absurd (htype.symm.trans hrecord) (by decide)
  case h_5 hrecord _ => exact .inr ⟨_, rfl, fields_eq_nil hrecord⟩

/-- What a node declares is what it is read as. -/
theorem declared_read_eq_some_iff {node : Value} {d : Definition} :
    (read node).declared = some d ↔ Declares node d := by
  constructor
  · intro hread
    rcases read_cases node with ⟨d', hdeclares, hread', -⟩ | ⟨_, hrefused, -⟩
    · obtain rfl := Option.some.inj (hread.symm.trans hread')
      exact hdeclares
    · rw [hrefused] at hread
      cases hread
  · intro hdeclares
    cases hdeclares with
    | record htype hname =>
      rw [fields_of_record htype (by rw [hname, Option.map_some])]
      simp only [read, htype, hname, Option.map_some]
      rfl
    | enum htype hname hsymbols =>
      simp only [read, htype, hname, Option.map_some, readEnum, hsymbols]

/-- A node that declares nothing is refused. -/
theorem exists_read_eq_refused {node : Value} (h : ∀ d, ¬ Declares node d) :
    ∃ d, read node = refused d := by
  rcases read_cases node with ⟨d, hdeclares, -, -⟩ | ⟨d, hread, -⟩
  · exact absurd hdeclares (h d)
  · exact ⟨d, hread⟩

/-- What a node writes in place is inside the types of its fields. -/
theorem inline_read (node : Value) :
    (read node).inline = ((fields node).map (·.type)).flatMap TypeExpr.inlineDefinitions := by
  rw [← TypeExpr.inlineFields_eq_flatMap]
  rcases read_cases node with ⟨d, -, -, hinline⟩ | ⟨d, hread, hfields⟩
  · exact hinline
  · rw [hread, hfields]
    rfl

/-- The definition that stands at a place inside a node: at the root the one that the node
declares, and in the types of its fields those that are written in place. -/
def definitionAt (node : Value) : Place → Option Definition :=
  tree (read node).declared ((fields node).map (·.type)) TypeExpr.definitionAt

/-- The definitions of a node, in the order in which they are registered. -/
def definitions (node : Value) : List Definition :=
  (read node).inline ++ (read node).declared.toList

end Node

/-- The definition that stands at a place inside the nodes of a schema. -/
def definitionAt (nodes : List Value) : Place → Option Definition :=
  tree none nodes Node.definitionAt

/-- The definitions of a schema are registered in post-order. -/
theorem lists_definitions (nodes : List Value) :
    Lists (definitionAt nodes) (nodes.flatMap Node.definitions) := by
  refine Lists.flatMap fun node _ => ?_
  rw [Node.definitions, Node.inline_read]
  exact Lists.withRoot fun t _ => t.lists_inlineDefinitions

end Schema

end CanonicalCwl
