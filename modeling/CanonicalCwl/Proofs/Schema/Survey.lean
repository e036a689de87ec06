import CanonicalCwl.Proofs.Entries
import CanonicalCwl.Schema.Inheritance

/-!
# What a Survey Holds

A survey registers every definition under its own name, once, and all that it reports is about
single nodes. Whatever is reported of parents and cycles is therefore found later, by the search
for inherited fields.

- `Survey.ofNode_ofNodes`: the diagnostics of a survey.
- `Survey.proper_ofNodes`: the registry of a survey.
- `Registry.Proper.get?_declaredRecords`: the declared records of a registry are its records.
-/

namespace CanonicalCwl

/-- The diagnostic is about one node and not about the relation between records. -/
def Diagnostic.OfNode : Diagnostic → Prop
  | unrecognizedNode _ _ | missingName _ _ => True
  | unknownParent _ _ | extendsCycle _ => False

namespace TypeExpr

theorem ofNode_unrecognized (context : String) (node : Value) :
    (unrecognized context node).OfNode := trivial

/-- An entry that gives no field lacks a name or a type. -/
theorem ofNode_of_fieldOutcome {context name : String} {entry : Value}
    {type : Except Diagnostic TypeExpr} {d : Diagnostic}
    (htype : ∀ d, type = .error d → d.OfNode)
    (h : fieldOutcome context name entry type = .error d) : d.OfNode := by
  rw [fieldOutcome.eq_def] at h
  split at h
  · obtain rfl := Except.error.inj h
    trivial
  split at h
  · obtain rfl := Except.error.inj h
    exact htype _ rfl
  · split at h <;> cases h
  · cases h

mutual

/-- What is wrong with a type is wrong with one of its nodes. -/
theorem ofNode_of_resolve :
    ∀ (v : Value) {context : String} {d : Diagnostic}, resolve context v = .error d → d.OfNode
  | .string s, _, _, h => by simp [resolve] at h
  | .sequence members, context, _, h => by
      rw [resolve] at h
      match hmembers : resolveAll context members with
      | .error d =>
        rw [hmembers] at h
        obtain rfl := Except.error.inj h
        exact ofNode_of_resolveAll members hmembers
      | .ok ts =>
        rw [hmembers] at h
        cases h
  | .mapping entries, context, _, h => by
      rw [resolve] at h
      split at h
      · match hitems : resolveUnder "items" context entries with
        | some (.error d) =>
          rw [hitems] at h
          obtain rfl := Except.error.inj h
          exact ofNode_of_resolveUnder entries hitems
        | some (.ok t) =>
          rw [hitems] at h
          cases h
        | none =>
          rw [hitems] at h
          obtain rfl := Except.error.inj h
          exact ofNode_unrecognized ..
      · cases h
      · split at h
        · cases h
        · obtain rfl := Except.error.inj h
          exact ofNode_unrecognized ..
      · obtain rfl := Except.error.inj h
        exact ofNode_unrecognized ..
  | .null, _, _, h | .bool _, _, _, h | .int _, _, _, h | .float _, _, _, h => by
      rw [resolve] at h
      · obtain rfl := Except.error.inj h
        exact ofNode_unrecognized ..
      all_goals simp

/-- What is wrong with the members of a union is wrong with one of their nodes. -/
theorem ofNode_of_resolveAll :
    ∀ (vs : List Value) {context : String} {d : Diagnostic},
      resolveAll context vs = .error d → d.OfNode
  | [], _, _, h => by simp [resolveAll] at h
  | v :: vs, context, _, h => by
      rw [resolveAll] at h
      match hv : resolve context v, hvs : resolveAll context vs with
      | .error d, _ =>
        rw [hv] at h
        obtain rfl := Except.error.inj h
        exact ofNode_of_resolve v hv
      | .ok t, .error d =>
        rw [hv, hvs] at h
        obtain rfl := Except.error.inj h
        exact ofNode_of_resolveAll vs hvs
      | .ok t, .ok ts =>
        rw [hv, hvs] at h
        cases h

/-- What is wrong with the type under a key is wrong with one of its nodes. -/
theorem ofNode_of_resolveUnder :
    ∀ (entries : List (String × Value)) {key context : String} {d : Diagnostic},
      resolveUnder key context entries = some (.error d) → d.OfNode
  | [], _, _, _, h => by simp [resolveUnder] at h
  | (k, v) :: rest, _, _, _, h => by
      rw [resolveUnder] at h
      split at h
      · exact ofNode_of_resolve v (Option.some.inj h)
      · exact ofNode_of_resolveUnder rest h

/-- What is wrong with the type that a field declares is wrong with one of its nodes. -/
theorem ofNode_of_declaredType :
    ∀ (v : Value) {context : String} {d : Diagnostic},
      declaredType context v = some (.error d) → d.OfNode
  | .mapping entries, _, _, h => by
      rw [declaredType] at h
      split at h
      · exact ofNode_of_resolveUnder entries h
      · cases h
  | .null, _, _, h | .bool _, _, _, h | .int _, _, _, h | .float _, _, _, h | .string _, _, _, h
  | .sequence _, _, _, h => by simp [declaredType] at h

/-- What is wrong with the fields of a mapping is wrong with one of their nodes. -/
theorem ofNode_of_mem_fieldsUnder :
    ∀ (entries : List (String × Value)) {context : String} {d : Diagnostic},
      .error d ∈ fieldsUnder context entries → d.OfNode
  | [], _, _, h => by simp [fieldsUnder] at h
  | (k, v) :: rest, _, _, h => by
      rw [fieldsUnder] at h
      split at h
      · exact ofNode_of_mem_resolveFields v h
      · exact ofNode_of_mem_fieldsUnder rest h

/-- What is wrong with a list or a mapping of fields is wrong with one of their nodes. -/
theorem ofNode_of_mem_resolveFields :
    ∀ (v : Value) {context : String} {d : Diagnostic},
      .error d ∈ resolveFields context v → d.OfNode
  | .sequence items, _, _, h => by
      rw [resolveFields] at h
      exact ofNode_of_mem_listedFields items h
  | .mapping entries, _, _, h => by
      rw [resolveFields] at h
      exact ofNode_of_mem_keyedFields entries h
  | .null, _, _, h | .bool _, _, _, h | .int _, _, _, h | .float _, _, _, h
  | .string _, _, _, h => by
      rw [resolveFields, List.mem_singleton] at h
      · obtain rfl := Except.error.inj h
        exact ofNode_unrecognized ..
      all_goals simp

/-- What is wrong with a listed field is wrong with one of its nodes. -/
theorem ofNode_of_mem_listedFields :
    ∀ (items : List Value) {context : String} {d : Diagnostic},
      .error d ∈ listedFields context items → d.OfNode
  | [], _, _, h => by simp [listedFields] at h
  | v :: rest, _, _, h => by
      rw [listedFields] at h
      rcases List.mem_cons.mp h with heq | h
      · refine ofNode_of_fieldOutcome (fun d htype => ?_) heq.symm
        -- The entry declares a type for the field, or is itself the type.
        rcases Option.getD_eq_iff.mp htype with hdeclared | ⟨-, hresolved⟩
        · exact ofNode_of_declaredType v hdeclared
        · exact ofNode_of_resolve v hresolved
      · exact ofNode_of_mem_listedFields rest h

/-- What is wrong with a keyed field is wrong with one of its nodes. -/
theorem ofNode_of_mem_keyedFields :
    ∀ (entries : List (String × Value)) {context : String} {d : Diagnostic},
      .error d ∈ keyedFields context entries → d.OfNode
  | [], _, _, h => by simp [keyedFields] at h
  | (name, v) :: rest, _, _, h => by
      rw [keyedFields] at h
      rcases List.mem_cons.mp h with heq | h
      · refine ofNode_of_fieldOutcome (fun d htype => ?_) heq.symm
        rcases Option.getD_eq_iff.mp htype with hdeclared | ⟨-, hresolved⟩
        · exact ofNode_of_declaredType v hdeclared
        · exact ofNode_of_resolve v hresolved
      · exact ofNode_of_mem_keyedFields rest h

end

end TypeExpr

namespace Schema

open Inheritance

/-! ## Diagnostics -/

/-- What a record node reports is about that node. -/
theorem Node.ofNode_readRecord {entries : Mapping} {name : String} {d : Diagnostic}
    (hd : d ∈ (Node.readRecord entries name).diagnostics) : d.OfNode := by
  obtain ⟨o, ho, hd⟩ := List.mem_filterMap.mp hd
  cases o with
  | error d' =>
    obtain rfl := Option.some.inj hd
    exact TypeExpr.ofNode_of_mem_fieldsUnder _ ho
  | ok f => cases hd

/-- What an enumeration node reports is about that node. -/
theorem Node.ofNode_readEnum {entries : Mapping} {name : String} {d : Diagnostic}
    (hd : d ∈ (Node.readEnum entries name).diagnostics) : d.OfNode := by
  rw [Node.readEnum] at hd
  split at hd
  · cases hd
  · obtain rfl := List.mem_singleton.mp hd
    exact TypeExpr.ofNode_unrecognized ..

/-- What a node reports is about that node. -/
theorem Node.ofNode_read {node : Value} {d : Diagnostic}
    (hd : d ∈ (Node.read node).diagnostics) : d.OfNode := by
  simp only [Node.read] at hd
  split at hd
  · exact Node.ofNode_readRecord hd
  · obtain rfl := List.mem_singleton.mp hd
    trivial
  · exact Node.ofNode_readEnum hd
  · obtain rfl := List.mem_singleton.mp hd
    trivial
  · obtain rfl := List.mem_singleton.mp hd
    exact TypeExpr.ofNode_unrecognized ..

/-- What a survey reports is about single nodes. -/
theorem Survey.ofNode_ofNodes {nodes : List Value} :
    ∀ d ∈ (Survey.ofNodes nodes).diagnostics, d.OfNode := by
  refine List.foldlRecOn (motive := fun s : Survey => ∀ d ∈ s.diagnostics, d.OfNode)
    nodes _ (by simp [Survey.empty]) fun s hs node _ d hd => ?_
  rcases List.mem_append.mp hd with hd | hd
  · exact hs d hd
  · exact Node.ofNode_read hd

/-! ## The registry -/

namespace Registry

variable {reg : Registry}

/-- Every definition is registered under its own name, and no name twice. -/
structure Proper (reg : Registry) : Prop where
  named : Named reg
  distinct : Entries.Distinct reg

theorem proper_nil : Proper [] := ⟨by simp [Named], List.nodup_nil⟩

/-- A definition is registered under its own name, in place of another of that name. -/
theorem Proper.declare (h : Proper reg) (d : Definition) : Proper (reg.declare d) := by
  refine ⟨fun e he => ?_, Entries.distinct_insert h.distinct d.name d⟩
  rcases Entries.mem_of_mem_insert he with he | rfl
  · exact h.named e he
  · rfl

theorem Proper.declareNew (h : Proper reg) (d : Definition) : Proper (reg.declareNew d) := by
  rw [Registry.declareNew]
  split
  · exact h
  · exact h.declare d

/-- The declared records of a registry are its records. -/
theorem Proper.get?_declaredRecords (h : Proper reg) (name : String) :
    Entries.get? (declaredRecords reg) name = reg.record? name := by
  induction reg with
  | nil => rfl
  | cons e rest ih =>
    obtain ⟨k, d⟩ := e
    obtain ⟨hk, hrest⟩ := List.nodup_cons.mp h.distinct
    have hname : k = d.name := h.named (k, d) (List.mem_cons_self ..)
    have ih := ih ⟨fun e he => h.named e (List.mem_cons_of_mem _ he), hrest⟩
    rw [Registry.record?, Entries.get?_cons]
    cases d with
    | record r =>
      show Entries.get? ((r.name, r) :: declaredRecords rest) name = _
      rw [Entries.get?_cons, ih, ← show k = r.name from hname]
      split <;> rfl
    | enum e =>
      show Entries.get? (declaredRecords rest) name = _
      rw [ih]
      split
      · -- No record of the same name follows.
        next heq =>
        rw [Registry.record?, Entries.get?_eq_none_iff.mpr (heq ▸ hk)]
        rfl
      · rfl

end Registry

/-- A survey registers every definition under its own name, once. -/
theorem Survey.proper_ofNodes (nodes : List Value) : (Survey.ofNodes nodes).registry.Proper := by
  refine List.foldlRecOn (motive := fun s : Survey => s.registry.Proper)
    nodes _ Registry.proper_nil fun s hs node _ => ?_
  have hinline : ((Node.read node).inline.foldl Registry.declareNew s.registry).Proper :=
    List.foldlRecOn _ _ hs fun _ hreg d _ => hreg.declareNew d
  rw [Survey.observe, Survey.add]
  match (Node.read node).declared with
  | some d => exact hinline.declare d
  | none => exact hinline

end Schema

end CanonicalCwl
