import CanonicalCwl.Proofs.TypeExpr.Inside

/-!
# The Grammar of Types

Which nodes are notations of types, said without reading them: a text, a sequence of notations, or
a mapping whose `type` is the word for an array, a record or an enumeration and that has what
belongs to it. A record is one whatever its fields are, since those that are wrong are left out.
In any other node some node is the first one that is at fault.

- `TypeExpr.Notation`: the notations of types.
- `TypeExpr.Fault`: the node that is at fault.
- `TypeExpr.exists_resolve_eq_ok_iff`: exactly the notations are read as types.
- `TypeExpr.resolve_eq_error_iff`: of exactly the other nodes the node at fault is reported.
- `TypeExpr.fault_iff_firstAtFault`: it is the first one that is at fault in depth-first order.
-/

namespace CanonicalCwl

open Result

/-- The texts of a sequence are told if it is a sequence of texts. -/
theorem allStrings?_eq_some_iff {v : Option Value} {texts : List String} :
    allStrings? v = some texts ↔ v = some (.strings texts) := by
  refine ⟨fun h => ?_, fun h => h ▸ allStrings?_strings texts⟩
  match v with
  | some (.sequence items) =>
    rw [Value.strings, Option.some_inj, Value.sequence.injEq]
    rw [allStrings?] at h
    induction items generalizing texts with
    | nil =>
      obtain rfl := Option.some.inj h
      rfl
    | cons item items ih =>
      simp only [List.mapM_cons, Option.bind_eq_bind, Option.bind_eq_some_iff] at h
      obtain ⟨text, htext, rest, hrest, hcons⟩ := h
      obtain rfl := Option.some.inj hcons
      cases item with
      | string s =>
        obtain rfl := Option.some.inj htext
        rw [List.map_cons, ih hrest]
      | _ => cases htext

namespace TypeExpr

variable {v w : Value}

/-- The notations of types. -/
inductive Notation : Value → Prop
  | text (s : String) : Notation (.string s)
  | union {members : List Value} (h : ∀ v ∈ members, Notation v) : Notation (.sequence members)
  | array {v items : Value} (htype : v.text? "type" = some "array")
      (hitems : v.get? "items" = some items) (h : Notation items) : Notation v
  | record {v : Value} (htype : v.text? "type" = some "record") : Notation v
  | enum {v : Value} {symbols : List String} (htype : v.text? "type" = some "enum")
      (hsymbols : v.get? "symbols" = some (.strings symbols)) : Notation v

/-- The second node is inside of the first one and keeps it from being the notation of a type; all
that is to the left of it is in order. -/
inductive Fault : Value → Value → Prop
  | itself {v : Value} (hstring : v.string? = none) (hsequence : v.sequence? = none)
      (harray : v.text? "type" = some "array" → v.get? "items" = none)
      (hrecord : v.text? "type" ≠ some "record")
      (henum : v.text? "type" = some "enum" →
        ∀ symbols, v.get? "symbols" ≠ some (.strings symbols)) : Fault v v
  | member {before : List Value} (after : List Value) {v w : Value}
      (hbefore : ∀ v ∈ before, Notation v) (h : Fault v w) :
      Fault (.sequence (before ++ v :: after)) w
  | items {v items w : Value} (htype : v.text? "type" = some "array")
      (hitems : v.get? "items" = some items) (h : Fault items w) : Fault v w

/-! ## Reading by the word for the type -/

theorem resolve_array (htype : v.text? "type" = some "array") (context : String) :
    resolve context v = match v.get? "items" with
      | some items => (resolve context items).map array
      | none => .error (unrecognized context v) := by
  cases v with
  | mapping es =>
    rw [resolve, resolveUnder_eq]
    simp only [Value.text?, Value.get?] at htype ⊢
    rw [htype]
    cases Entries.get? es "items" <;> rfl
  | _ => cases htype

theorem resolve_record (htype : v.text? "type" = some "record") (context : String) :
    ∃ name fields, resolve context v = .ok (record name fields) := by
  cases v with
  | mapping es =>
    rw [resolve]
    simp only [Value.text?, Value.get?] at htype
    rw [htype]
    exact ⟨_, _, rfl⟩
  | _ => cases htype

theorem resolve_enum (htype : v.text? "type" = some "enum") (context : String) :
    resolve context v = match allStrings? (v.get? "symbols") with
      | some symbols => .ok (enum ((v.text? "name").getD "") symbols)
      | none => .error (unrecognized context v) := by
  cases v with
  | mapping es =>
    rw [resolve]
    simp only [Value.text?, Value.get?] at htype ⊢
    rw [htype]
    rfl
  | _ => cases htype

/-- Nothing but a text or a sequence is read without a word for its type. -/
theorem resolve_of_type_ne (hstring : v.string? = none) (hsequence : v.sequence? = none)
    (htype : ∀ word ∈ ["array", "record", "enum"], v.text? "type" ≠ some word)
    (context : String) : resolve context v = .error (unrecognized context v) := by
  simp only [List.forall_mem_cons] at htype
  obtain ⟨harray, hrecord, henum, -⟩ := htype
  cases v with
  | mapping es =>
    rw [resolve]
    split
    next h => exact absurd h harray
    next h => exact absurd h hrecord
    next h => exact absurd h henum
    next => rfl
  | string s => cases hstring
  | sequence items => cases hsequence
  | _ => rfl

/-! ## What is read and what is not -/

/-- The notation of a type is read. -/
theorem resolve_of_notation (h : Notation v) (context : String) :
    ∃ t, resolve context v = .ok t := by
  induction h with
  | text s => exact ⟨ofShorthand s, by rw [resolve]⟩
  | union _ ih =>
    obtain ⟨ts, hts⟩ := exists_mapM_eq_ok ih
    refine ⟨union ts, ?_⟩
    rw [resolve, resolveAll_eq_mapM, hts]
    rfl
  | array htype hitems _ ih =>
    obtain ⟨t, ht⟩ := ih
    refine ⟨array t, ?_⟩
    rw [resolve_array htype, hitems]
    simp only [ht, Except.map]
  | record htype =>
    obtain ⟨name, fields, h⟩ := resolve_record htype context
    exact ⟨_, h⟩
  | @enum v symbols htype hsymbols =>
    refine ⟨enum ((v.text? "name").getD "") symbols, ?_⟩
    rw [resolve_enum htype, hsymbols, allStrings?_strings]

/-- Of a node that is no notation of a type the node at fault is reported. -/
theorem resolve_of_fault (h : Fault v w) (context : String) :
    resolve context v = .error (unrecognized context w) := by
  induction h with
  | @itself v hstring hsequence harray hrecord henum =>
    by_cases htype : v.text? "type" = some "array"
    · rw [resolve_array htype, harray htype]
    by_cases htype' : v.text? "type" = some "enum"
    · have hnone : allStrings? (v.get? "symbols") = none :=
        Option.eq_none_iff_forall_ne_some.mpr fun symbols hsymbols =>
          henum htype' symbols (allStrings?_eq_some_iff.mp hsymbols)
      rw [resolve_enum htype', hnone]
    refine resolve_of_type_ne hstring hsequence (fun word hword => ?_) context
    simp only [List.mem_cons, List.not_mem_nil, or_false] at hword
    rcases hword with rfl | rfl | rfl <;> assumption
  | member after hbefore _ ih =>
    have hread := fun v hv => resolve_of_notation (hbefore v hv) context
    rw [resolve, resolveAll_eq_mapM, mapM_eq_error hread ih after]
    rfl
  | items htype hitems _ ih =>
    rw [resolve_array htype, hitems]
    simp only [ih, Except.map]

/-- Of several nodes all are notations of types, or there is a first one with a node at fault. -/
theorem notations_or_fault {vs : List Value} (h : ∀ v ∈ vs, Notation v ∨ ∃ w, Fault v w) :
    (∀ v ∈ vs, Notation v) ∨ ∃ before v after w, vs = before ++ v :: after ∧
      (∀ v ∈ before, Notation v) ∧ Fault v w := by
  induction vs with
  | nil => exact .inl nofun
  | cons v vs ih =>
    rcases h v (List.mem_cons_self ..) with hv | ⟨w, hw⟩
    · rcases ih fun v hv => h v (List.mem_cons_of_mem _ hv) with hvs | hvs
      · exact .inl (List.forall_mem_cons.mpr ⟨hv, hvs⟩)
      · obtain ⟨before, u, after, w, rfl, hbefore, hw⟩ := hvs
        exact .inr ⟨v :: before, u, after, w, rfl, List.forall_mem_cons.mpr ⟨hv, hbefore⟩, hw⟩
    · exact .inr ⟨[], v, vs, w, rfl, nofun, hw⟩

/-- A node is the notation of a type, or there is a node at fault. -/
theorem notation_or_fault : ∀ v : Value, Notation v ∨ ∃ w, Fault v w
  | .string s => .inl (.text s)
  | .sequence members => by
      have hmembers := fun v (hv : v ∈ members) => notation_or_fault v
      rcases notations_or_fault hmembers with h | ⟨before, v, after, w, rfl, hbefore, hw⟩
      · exact .inl (.union h)
      · exact .inr ⟨w, .member after hbefore hw⟩
  | .mapping es => by
      -- A mapping that has what belongs to the word for its type is in order up to its items.
      by_cases hrecord : (Value.mapping es).text? "type" = some "record"
      · exact .inl (.record hrecord)
      by_cases henum : (Value.mapping es).text? "type" = some "enum" ∧ ∃ symbols,
          (Value.mapping es).get? "symbols" = some (.strings symbols)
      · obtain ⟨htype, symbols, hsymbols⟩ := henum
        exact .inl (.enum htype hsymbols)
      by_cases harray : (Value.mapping es).text? "type" = some "array" ∧ ∃ items,
          (Value.mapping es).get? "items" = some items
      · obtain ⟨htype, items, hitems⟩ := harray
        have hsize := Value.sizeOf_lt_of_entries_get? hitems
        rcases notation_or_fault items with h | ⟨w, hw⟩
        · exact .inl (.array htype hitems h)
        · exact .inr ⟨w, .items htype hitems hw⟩
      refine .inr ⟨.mapping es, .itself rfl rfl (fun htype => ?_) hrecord ?_⟩
      · exact Option.eq_none_iff_forall_ne_some.mpr fun items hitems =>
          harray ⟨htype, items, hitems⟩
      · exact fun htype symbols hsymbols => henum ⟨htype, symbols, hsymbols⟩
  | .null | .bool _ | .int _ | .float _ =>
      .inr ⟨_, .itself rfl rfl nofun nofun nofun⟩
termination_by v => sizeOf v

/-- Exactly the notations of types are read. -/
theorem exists_resolve_eq_ok_iff {context : String} :
    (∃ t, resolve context v = .ok t) ↔ Notation v := by
  refine ⟨fun ⟨t, ht⟩ => ?_, fun h => resolve_of_notation h context⟩
  rcases notation_or_fault v with h | ⟨w, hw⟩
  · exact h
  · rw [resolve_of_fault hw] at ht
    cases ht

/-- Of exactly the other nodes the node at fault is reported. -/
theorem resolve_eq_error_iff {context : String} {d : Diagnostic} :
    resolve context v = .error d ↔ ∃ w, Fault v w ∧ d = unrecognized context w := by
  constructor
  · intro h
    rcases notation_or_fault v with hv | ⟨w, hw⟩
    · obtain ⟨t, ht⟩ := resolve_of_notation hv context
      rw [ht] at h
      cases h
    · rw [resolve_of_fault hw] at h
      exact ⟨w, hw, (Except.error.inj h).symm⟩
  · rintro ⟨w, hw, rfl⟩
    exact resolve_of_fault hw context

/-- Whether a node is the notation of a type is decided by reading it. -/
instance : DecidablePred Notation := fun v =>
  decidable_of_iff ((resolve "" v).toOption.isSome = true) <| by
    rw [Option.isSome_iff_exists, ← @exists_resolve_eq_ok_iff v ""]
    simp only [toOption_eq_some_iff]

/-! ## The order of the nodes -/

mutual

/-- The nodes that have to be in order in the notation of a type, depth first and from left to
right. The fields of a record are not among them. -/
def nodes : Value → List Value
  | .sequence members => .sequence members :: nodesAll members
  | .mapping entries =>
      .mapping entries ::
        if (Value.mapping entries).text? "type" = some "array" then nodesUnder "items" entries
        else []
  | v => [v]

/-- The nodes of the members of a union. -/
def nodesAll : List Value → List Value
  | [] => []
  | v :: rest => nodes v ++ nodesAll rest

/-- The nodes of the notation under a key. -/
def nodesUnder (key : String) : List (String × Value) → List Value
  | [] => []
  | (k, v) :: rest => if k = key then nodes v else nodesUnder key rest

end

/-- The node itself is at fault: it is neither a text nor a sequence nor a mapping that has what
belongs to the word for its type. -/
structure AtFault (v : Value) : Prop where
  string : v.string? = none
  sequence : v.sequence? = none
  array : v.text? "type" = some "array" → v.get? "items" = none
  record : v.text? "type" ≠ some "record"
  enum : v.text? "type" = some "enum" → ∀ symbols, v.get? "symbols" ≠ some (.strings symbols)

/-- The second node is the first one of the first node that is at fault. -/
def FirstAtFault (v w : Value) : Prop :=
  ∃ before after, nodes v = before ++ w :: after ∧ (∀ u ∈ before, ¬ AtFault u) ∧ AtFault w

theorem nodesAll_eq_flatMap (vs : List Value) : nodesAll vs = vs.flatMap nodes := by
  induction vs with
  | nil => rfl
  | cons v vs ih => rw [nodesAll, ih, List.flatMap_cons]

theorem nodesUnder_eq (key : String) (es : Mapping) :
    nodesUnder key es = ((Entries.get? es key).map nodes).getD [] := by
  induction es with
  | nil => rfl
  | cons e rest ih =>
    obtain ⟨k, v⟩ := e
    rw [nodesUnder, Entries.get?_cons, ih]
    split <;> rfl

theorem nodes_array {items : Value} (htype : v.text? "type" = some "array")
    (hitems : v.get? "items" = some items) : nodes v = v :: nodes items := by
  cases v with
  | mapping es =>
    have hget : Entries.get? es "items" = some items := hitems
    rw [nodes, if_pos htype, nodesUnder_eq, hget]
    rfl
  | _ => cases htype

/-- A record or an enumeration has no other nodes. -/
theorem nodes_of_type_ne {word : String} (htype : v.text? "type" = some word)
    (hword : word ≠ "array") : nodes v = [v] := by
  cases v with
  | mapping es =>
    rw [nodes, if_neg]
    rw [htype]
    exact fun heq => hword (Option.some.inj heq)
  | _ => cases htype

/-- A node comes first of its own nodes. -/
theorem nodes_eq_cons (v : Value) : ∃ rest, nodes v = v :: rest := by
  cases v <;> exact ⟨_, rfl⟩

/-- In the notation of a type no node is at fault. -/
theorem Notation.not_atFault (h : Notation v) : ∀ u ∈ nodes v, ¬ AtFault u := by
  induction h with
  | text s =>
    rintro u hu hfault
    obtain rfl := List.mem_singleton.mp hu
    cases hfault.string
  | @union members _ ih =>
    rw [nodes, nodesAll_eq_flatMap]
    intro u hu hfault
    rcases List.mem_cons.mp hu with rfl | hu
    · cases hfault.sequence
    · obtain ⟨member, hmember, hu⟩ := List.mem_flatMap.mp hu
      exact ih member hmember u hu hfault
  | array htype hitems _ ih =>
    rw [nodes_array htype hitems]
    intro u hu hfault
    rcases List.mem_cons.mp hu with rfl | hu
    · rw [hfault.array htype] at hitems
      cases hitems
    · exact ih u hu hfault
  | record htype =>
    rw [nodes_of_type_ne htype (by decide)]
    intro u hu hfault
    obtain rfl := List.mem_singleton.mp hu
    exact hfault.record htype
  | @enum v symbols htype hsymbols =>
    rw [nodes_of_type_ne htype (by decide)]
    intro u hu hfault
    obtain rfl := List.mem_singleton.mp hu
    exact hfault.enum htype symbols hsymbols

/-- The node that keeps a node from being the notation of a type comes first of those at fault. -/
theorem firstAtFault_of_fault (h : Fault v w) : FirstAtFault v w := by
  induction h with
  | @itself v hstring hsequence harray hrecord henum =>
    obtain ⟨rest, hnodes⟩ := nodes_eq_cons v
    exact ⟨[], rest, hnodes, nofun, hstring, hsequence, harray, hrecord, henum⟩
  | @member before after v w hbefore _ ih =>
    obtain ⟨pre, post, hnodes, hpre, hw⟩ := ih
    refine ⟨.sequence (before ++ v :: after) :: before.flatMap nodes ++ pre,
      post ++ after.flatMap nodes, ?_, ?_, hw⟩
    · rw [nodes, nodesAll_eq_flatMap, List.flatMap_append, List.flatMap_cons, hnodes]
      simp
    · intro u hu hfault
      rcases List.mem_append.mp hu with hu | hu
      · rcases List.mem_cons.mp hu with rfl | hu
        · cases hfault.sequence
        · obtain ⟨member, hmember, hu⟩ := List.mem_flatMap.mp hu
          exact (hbefore member hmember).not_atFault u hu hfault
      · exact hpre u hu hfault
  | @items v items w htype hitems _ ih =>
    obtain ⟨pre, post, hnodes, hpre, hw⟩ := ih
    refine ⟨v :: pre, post, ?_, ?_, hw⟩
    · rw [nodes_array htype hitems, hnodes, List.cons_append]
    · intro u hu hfault
      rcases List.mem_cons.mp hu with rfl | hu
      · rw [hfault.array htype] at hitems
        cases hitems
      · exact hpre u hu hfault

/-- At most one node is the first one at fault. -/
theorem FirstAtFault.unique {w' : Value} (h : FirstAtFault v w) (h' : FirstAtFault v w') :
    w = w' := by
  classical
  have hfind {u : Value} (hu : FirstAtFault v u) :
      (nodes v).find? (fun u => decide (AtFault u)) = some u := by
    obtain ⟨before, after, hnodes, hbefore, hfault⟩ := hu
    rw [List.find?_eq_some_iff_append]
    exact ⟨by simpa using hfault, before, after, hnodes, by simpa using hbefore⟩
  exact Option.some.inj ((hfind h).symm.trans (hfind h'))

/-- The node that keeps a node from being the notation of a type is the first one at fault. -/
theorem fault_iff_firstAtFault : Fault v w ↔ FirstAtFault v w := by
  refine ⟨firstAtFault_of_fault, fun hfirst => ?_⟩
  rcases notation_or_fault v with h | ⟨w', hw'⟩
  · obtain ⟨before, after, hnodes, -, hfault⟩ := hfirst
    exact absurd hfault (h.not_atFault w (by simp [hnodes]))
  · rwa [hfirst.unique (firstAtFault_of_fault hw')]

end TypeExpr

end CanonicalCwl
