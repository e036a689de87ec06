import CanonicalCwl.Proofs.Process.Stable
import Mathlib.Data.List.Pairwise

/-!
# The Order of Passes

The normal form of a record begins with passes over its fields. A pass lists the maps keyed by id
under the keys that it names, or wraps the values there that are no lists. It looks at each field
alone, and what it has rewritten it does not rewrite again. Passes that name different keys do not
see each other, so that each value is rewritten by the one pass that names its key, in whatever
order the passes are made.

- `Rewrite.Pass`: a pass over the fields of a record.
- `Rewrite.Pass.run_eq_self_iff`: what a pass leaves as it is.
- `Rewrite.Pass.runAll_eq_mapWithKey`: what passes that name different keys make of a record.
- `Normal.step_eq_of_perm`, `Normal.common_eq_of_perm`: the passes of the normal form in any order.
- `Rewrite.Pass.run_laws`: passes repeat without effect, and commute if they name different keys.
-/

namespace CanonicalCwl

namespace Rewrite

/-- A pass over the fields of a record. -/
inductive Pass where
  /-- List the maps keyed by id. -/
  | dictToList (fields : List String) (tag : String)
  /-- Wrap the values that are no lists. -/
  | forceList (fields : List String)

namespace Pass

variable {p q : Pass} {ps qs : List Pass} {v : Value} {es : Mapping}

/-- The keys that a pass names. -/
def fields : Pass → List String
  | dictToList fields _ | forceList fields => fields

/-- Make a pass over a record. -/
def run : Pass → Mapping → Mapping
  | dictToList fields tag => Rewrite.dictToList fields tag
  | forceList fields => Rewrite.forceList fields

/-- Make passes one after the other. -/
def runAll (ps : List Pass) (es : Mapping) : Mapping := ps.foldl (fun es p => p.run es) es

/-- What a pass makes of a value under a key that it names. -/
def onValue : Pass → Value → Value
  | dictToList _ tag => listOfMap tag
  | forceList _ => listOfValue

/-- Nothing is left to do for a pass: there is no map to be listed, or there is a list already. -/
def Settled : Pass → Value → Prop
  | dictToList _ _, v => v.mapping? = none
  | forceList _, v => ∃ vs, v = .sequence vs

/-- No key is named by two of the passes. -/
def Apart (ps : List Pass) : Prop := ps.Pairwise fun p q => p.fields.Disjoint q.fields

/-- The value under a key, rewritten by the first pass that names the key. -/
def valueAfter (ps : List Pass) (k : String) (v : Value) : Value :=
  match ps.find? (k ∈ ·.fields) with
  | some p => p.onValue v
  | none => v

/-! ## One pass -/

theorem run_eq_mapWithKey (p : Pass) (es : Mapping) :
    p.run es = Entries.mapWithKey (fun k v => if k ∈ p.fields then p.onValue v else v) es := by
  cases p <;> rfl

theorem keys_run (p : Pass) (es : Mapping) : Entries.keys (p.run es) = Entries.keys es := by
  rw [run_eq_mapWithKey, Entries.keys_mapWithKey]

theorem settled_onValue (p : Pass) (v : Value) : p.Settled (p.onValue v) := by
  cases p with
  | dictToList fields tag => exact mapping?_listOfMap tag v
  | forceList fields => cases v <;> exact ⟨_, rfl⟩

/-- Exactly the settled values are not rewritten. -/
theorem onValue_eq_self_iff : p.onValue v = v ↔ p.Settled v := by
  refine ⟨fun h => h ▸ p.settled_onValue v, fun h => ?_⟩
  cases p with
  | dictToList fields tag => exact listOfMap_eq_self h
  | forceList fields =>
    obtain ⟨vs, rfl⟩ := h
    rfl

/-- A pass leaves a record as it is exactly if the values under the keys that it names are
settled. -/
theorem run_eq_self_iff : p.run es = es ↔ ∀ e ∈ es, e.1 ∈ p.fields → p.Settled e.2 := by
  rw [run_eq_mapWithKey, Entries.mapWithKey_eq_self_iff]
  refine forall₂_congr fun e _ => ?_
  rw [ite_eq_right_iff, onValue_eq_self_iff]

/-- What a pass has rewritten it does not rewrite again. -/
theorem run_run (p : Pass) (es : Mapping) : p.run (p.run es) = p.run es := by
  refine run_eq_self_iff.mpr fun e he hk => ?_
  rw [run_eq_mapWithKey] at he
  obtain ⟨v, -, hv⟩ := Entries.mem_mapWithKey.mp he
  rw [← hv, if_pos hk]
  exact p.settled_onValue v

/-! ## Several passes -/

/-- Passes that name different keys commute. -/
theorem run_comm (h : p.fields.Disjoint q.fields) (es : Mapping) :
    p.run (q.run es) = q.run (p.run es) := by
  simp only [run_eq_mapWithKey, Entries.mapWithKey_mapWithKey]
  congr 1
  funext k v
  by_cases hp : k ∈ p.fields
  · have hq : k ∉ q.fields := fun hq => h hp hq
    simp only [if_pos hp, if_neg hq]
  · simp only [if_neg hp]

/-- Passes that name one key need not commute: an empty map is wrapped, or listed as no records. -/
example :
    (dictToList ["in"] "source").run ((forceList ["in"]).run [("in", .mapping [])]) =
        [("in", .sequence [.mapping []])] ∧
      (forceList ["in"]).run ((dictToList ["in"] "source").run [("in", .mapping [])]) =
        [("in", .sequence [])] := by
  decide

/-- Passes that name different keys may be made in any order. -/
theorem runAll_eq_of_perm (hapart : Apart ps) (hperm : ps.Perm qs) (es : Mapping) :
    runAll ps es = runAll qs es := by
  let Commute (p q : Pass) : Prop := ∀ es, q.run (p.run es) = p.run (q.run es)
  have : Std.Symm Commute := ⟨fun _ _ h es => (h es).symm⟩
  have hcomm : ps.Pairwise Commute := hapart.imp fun h es => (run_comm h es).symm
  -- A pass commutes with itself, too, so that any two of the passes do.
  refine hperm.foldl_eq' (fun p hp q hq es => ?_) es
  exact hcomm.forall_of_forall (fun _ _ _ => rfl) hp hq es

/-- Of passes that name different keys, the one that names the key of a value rewrites it. -/
theorem runAll_eq_mapWithKey (hapart : Apart ps) (es : Mapping) :
    runAll ps es = Entries.mapWithKey (valueAfter ps) es := by
  induction ps generalizing es with
  | nil => exact (Entries.mapWithKey_eq_self fun _ _ _ => rfl).symm
  | cons p ps ih =>
    obtain ⟨hp, hps⟩ := List.pairwise_cons.mp hapart
    have hcons : runAll (p :: ps) es = runAll ps (p.run es) := rfl
    rw [hcons, ih hps, run_eq_mapWithKey, Entries.mapWithKey_mapWithKey]
    congr 1
    funext k v
    by_cases hk : k ∈ p.fields
    · -- No other pass names the key, so that the value stays what this one has made of it.
      have hnone : ps.find? (k ∈ ·.fields) = none := by
        simpa using fun q hq => hp q hq hk
      simp [valueAfter, hk, hnone]
    · simp [valueAfter, hk]

end Pass

end Rewrite

/-! ## The passes of the normal form -/

namespace Normal

open Rewrite

/-- The passes over a step. -/
def stepPasses : List Pass :=
  [.dictToList stepMapFields "type", .dictToList ["in"] "source", .forceList listFields]

/-- The passes over a process of a class. -/
def processPasses (tag : ClassTag) : List Pass :=
  [.dictToList (mapFields tag) "type", .forceList listFields]

theorem apart_stepPasses : Pass.Apart stepPasses := by
  simp [Pass.Apart, stepPasses, Pass.fields, stepMapFields, listFields]

theorem apart_processPasses (tag : ClassTag) : Pass.Apart (processPasses tag) := by
  cases tag <;> simp [Pass.Apart, processPasses, Pass.fields, mapFields, listFields]

/-- The passes over a step may be made in any order. -/
theorem step_eq_of_perm {ps : List Pass} (h : stepPasses.Perm ps) :
    step = onEntries fun es =>
      Entries.modify
        (Entries.modify (Pass.runAll ps es) "in" (onItems (onEntries (forceList listFields))))
        "out" (onItems stepOutput) := by
  simp only [← Pass.runAll_eq_of_perm apart_stepPasses h]
  rfl

/-- The passes over a process may be made in any order. -/
theorem common_eq_of_perm {tag : ClassTag} {ps : List Pass} (h : (processPasses tag).Perm ps) :
    common tag = fun es =>
      Entries.modify
        (Entries.modify (Pass.runAll ps es) "inputs" (onItems (parameter true)))
        "outputs" (onItems (parameter false)) := by
  simp only [← Pass.runAll_eq_of_perm (apart_processPasses tag) h]
  rfl

end Normal

/-! ## The laws of passes -/

namespace Rewrite.Pass

/-- A pass, be it `dictToList` or `forceList`, keeps the keys and their order. A second time it
changes nothing, and the first time it changes nothing exactly if the values under the keys that it
names are settled. Two passes that name different keys commute. Several of them give the same in
every order: each value is rewritten by the pass that names its key, and by no other. -/
theorem run_laws (es : Mapping) :
    (∀ p : Pass, Entries.keys (p.run es) = Entries.keys es ∧ p.run (p.run es) = p.run es ∧
      (p.run es = es ↔ ∀ e ∈ es, e.1 ∈ p.fields → p.Settled e.2)) ∧
    (∀ p q : Pass, p.fields.Disjoint q.fields → p.run (q.run es) = q.run (p.run es)) ∧
    ∀ ps qs : List Pass, Apart ps → ps.Perm qs →
      runAll ps es = runAll qs es ∧ runAll ps es = Entries.mapWithKey (valueAfter ps) es := by
  refine ⟨fun p => ⟨p.keys_run es, p.run_run es, run_eq_self_iff⟩, fun p q h => run_comm h es, ?_⟩
  intro ps qs hapart hperm
  exact ⟨runAll_eq_of_perm hapart hperm es, runAll_eq_mapWithKey hapart es⟩

/-- A step with inputs and hints that are keyed by id, and with a value in place of a list. -/
def keyedStep : Mapping :=
  [("hints", .mapping [("Network", .mapping [("access", .bool true)])]),
    ("in", .mapping [("x", .string "a")]), ("scatter", .string "x"), ("out", .sequence [])]

/-- The step after its passes, in the one order and in the other. -/
theorem run_laws_keyedStep :
    Apart Normal.stepPasses ∧ Normal.stepPasses.Perm Normal.stepPasses.reverse ∧
      runAll Normal.stepPasses keyedStep = runAll Normal.stepPasses.reverse keyedStep ∧
      runAll Normal.stepPasses keyedStep =
        [("hints", .sequence [.mapping [("id", .string "Network"), ("access", .bool true)]]),
          ("in", .sequence [.mapping [("id", .string "x"), ("source", .string "a")]]),
          ("scatter", .sequence [.string "x"]), ("out", .sequence [])] := by
  have hperm : Normal.stepPasses.Perm Normal.stepPasses.reverse :=
    (List.reverse_perm Normal.stepPasses).symm
  obtain ⟨-, -, hlaw⟩ := run_laws keyedStep
  obtain ⟨horder, -⟩ := hlaw _ _ Normal.apart_stepPasses hperm
  exact ⟨Normal.apart_stepPasses, hperm, horder, rfl⟩

end Rewrite.Pass

end CanonicalCwl
