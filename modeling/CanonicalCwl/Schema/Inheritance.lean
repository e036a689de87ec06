import CanonicalCwl.Schema.Survey

/-!
# Inheritance

A record takes over the fields of its parents: its own fields come first, then those of each
parent, flattened before. The search is depth-first and keeps what it has finished. A parent
that the search is already inside of is left out, and so is one that no record declares; both
are reported.

- `Inheritance.flatten` is the search.
- `Resolution.ofNodes` resolves a list of schema nodes.
-/

namespace CanonicalCwl.Schema

namespace Inheritance

/-- The declared records of a registry, by name. -/
def declaredRecords (reg : Registry) : Entries RecordDef :=
  reg.filterMap fun e => e.2.record?.map fun r => (r.name, r)

/-- A parent that a record gives and that the search leaves out. -/
inductive Skip where
  /-- The search is already inside of the parent. -/
  | cyclic (record parent : String)
  /-- The parent is no declared record. -/
  | unknown (record parent : String)
  deriving DecidableEq

namespace Skip

/-- The record that gives the parent. -/
def record : Skip → String
  | cyclic record _ | unknown record _ => record

/-- What is reported of a parent that is left out. -/
def diagnostic : Skip → Diagnostic
  | cyclic record _ => .extendsCycle record
  | unknown record parent => .unknownParent record parent

end Skip

/-- What the search has found so far. -/
structure Progress where
  /-- The field lists of the finished records, in the order in which they were finished. -/
  finished : Entries (List Field)
  /-- The parents that were left out, in the order in which the search came upon them. -/
  skipped : List Skip

namespace Progress

/-- Nothing has been found. -/
def empty : Progress := ⟨[], []⟩

/-- Leave out a parent. -/
def skip (p : Progress) (s : Skip) : Progress := { p with skipped := p.skipped ++ [s] }

/-- Keep the field list of a finished record. -/
def finish (p : Progress) (name : String) (fields : List Field) : Progress :=
  { p with finished := Entries.insert p.finished name fields }

end Progress

/-- The number of declared records that the search is not inside of. -/
def outside (declared : Entries RecordDef) (stack : List String) : Nat :=
  declared.countP fun e => e.1 ∉ stack

/-- Going inside a declared record leaves fewer records outside. -/
theorem outside_cons_lt {declared : Entries RecordDef} {stack : List String} {name : String}
    {r : RecordDef} (hr : Entries.get? declared name = some r) (hs : name ∉ stack) :
    outside declared (name :: stack) < outside declared stack := by
  have hle (es : Entries RecordDef) : outside es (name :: stack) ≤ outside es stack :=
    List.countP_mono_left (by simp)
  induction declared with
  | nil => simp at hr
  | cons e rest ih =>
    obtain ⟨k, v⟩ := e
    simp only [outside, List.countP_cons] at hle ih ⊢
    by_cases hk : k = name
    · subst hk
      simpa [hs] using Nat.lt_succ_of_le (hle rest)
    · have hrest := ih (by simpa [Entries.get?, hk] using hr)
      by_cases hks : k ∈ stack <;> simp [hk, hks] at hrest ⊢ <;> omega

/-- The fields of the named parents of `child`, one parent after the other. `stack` holds the
records that the search is inside of. -/
def flatten (declared : Entries RecordDef) (stack : List String) (child : String) :
    List String → Progress → List Field × Progress
  | [], p => ([], p)
  | parent :: rest, p =>
      -- The fields of a record that the search is inside of are not known yet.
      if _ : parent ∈ stack then
        flatten declared stack child rest (p.skip (.cyclic child parent))
      else
        match _ : Entries.get? declared parent with
        | none => flatten declared stack child rest (p.skip (.unknown child parent))
        | some r =>
            -- A finished record keeps its fields, also those that a cycle has cut short.
            let (fields, p) :=
              match Entries.get? p.finished parent with
              | some fields => (fields, p)
              | none =>
                  let (inherited, p) := flatten declared (parent :: stack) parent r.parents p
                  (r.fields ++ inherited, p.finish parent (r.fields ++ inherited))
            let (more, p) := flatten declared stack child rest p
            (fields ++ more, p)
termination_by parents => (outside declared stack, parents.length)
decreasing_by
  · exact Prod.Lex.right _ (by simp)
  · exact Prod.Lex.right _ (by simp)
  · exact Prod.Lex.left _ _ (outside_cons_lt (by assumption) (by assumption))
  · exact Prod.Lex.right _ (by simp)

/-- The search over all declared records, in order. Each of them is declared and none is inside
another at the start, so that nothing is reported of the list itself. -/
def search (declared : Entries RecordDef) : Progress :=
  (flatten declared [] "" (Entries.keys declared) .empty).2

/-- The field list of one record when the search starts from it. -/
def fieldsFrom (declared : Entries RecordDef) (name : String) : List Field :=
  (flatten declared [] "" [name] .empty).1

end Inheritance

/-- A registry in which every record has all its fields, and what was reported on the way. -/
structure Resolution where
  registry : Registry
  diagnostics : List Diagnostic

namespace Resolution

/-- The definition with the field list that the search found for it. -/
def withFields (finished : Entries (List Field)) : Definition → Definition
  | .record r => .record { r with fields := (Entries.get? finished r.name).getD r.fields }
  | .enum e => .enum e

/-- Resolve a survey: give every record the fields of its parents. -/
def ofSurvey (s : Survey) : Resolution :=
  let p := Inheritance.search (Inheritance.declaredRecords s.registry)
  { registry := Entries.mapWithKey (fun _ d => withFields p.finished d) s.registry
    diagnostics := s.diagnostics ++ p.skipped.map Inheritance.Skip.diagnostic }

/-- Resolve a list of schema nodes. -/
def ofNodes (nodes : List Value) : Resolution := ofSurvey (Survey.ofNodes nodes)

end Resolution

end CanonicalCwl.Schema
