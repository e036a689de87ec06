import CanonicalCwl.Loader.Load
import CanonicalCwl.Proofs.Loader.Reference
import CanonicalCwl.Proofs.Result

/-!
# Loading a Tree

Loading a tree takes two stages: the tree is brought into normal form, and then the references
of the document are followed. The first stage does not look at other files, and the second can
only fail on a file that the document refers to.

- `Loader.loadTree_eq`: the two stages.
- `Document.succeeds_follow_iff`: when the references of a document can be followed.
- `Reference.select_succeeds_iff`: when a document has the process that a reference means.
-/

namespace CanonicalCwl

open Result

namespace Document

/-- The processes of a document. -/
def processes : Document → List Process
  | process p => [p]
  | graph g => g.members

/-- The members that references inside the document can mean. -/
def bundle : Document → List Process
  | process _ => []
  | graph g => g.members

/-- The references to files in a document: those of any of its processes. -/
def RunsFile (d : Document) (file : String) : Prop := ∃ p ∈ d.processes, p.RunsFile file

/-- Follow the references of a document. -/
def follow (external : String → Outcome Process) (d : Document) : Outcome Document :=
  match d with
  | process p => do return process (← Reference.followMember external [] p)
  | graph g => do
      return graph
        { g with members := ← g.members.mapM (Reference.followMember external g.members) }

/-- A document has the process that a reference with this fragment means: it is a single process,
or a member has the name, or without a name a member is called `main` or is the only one. -/
def Offers : Document → Option String → Prop
  | process _, _ => True
  | graph g, some name => ∃ p ∈ g.members, p.id?.map memberName = some (memberName name)
  | graph g, none =>
      (∃ p ∈ g.members, p.id?.map memberName = some "main") ∨ ∃ p, g.members = [p]

variable {external external' : String → Outcome Process} {d d' : Document}

/-- The members of a bundle are among the processes of the document. -/
theorem mem_processes_of_mem_bundle {p : Process} (h : p ∈ d.bundle) : p ∈ d.processes := by
  cases d with
  | process q => cases h
  | graph g => exact h

/-- The references of a document can be followed exactly if the files that it refers to can be
found. -/
theorem succeeds_follow_iff :
    (d.follow external).Succeeds ↔ ∀ file, d.RunsFile file → (external file).Succeeds := by
  -- A member that is put into another one refers to no files but those of the bundle.
  have hmembers (bundle members : List Process) (hsub : ∀ p ∈ bundle, p ∈ members) :
      (∀ p ∈ members, (Reference.followMember external bundle p).Succeeds) ↔
        ∀ file, (∃ p ∈ members, p.RunsFile file) → (external file).Succeeds := by
    constructor
    · rintro h file ⟨p, hp, hfile⟩
      exact Reference.succeeds_external_of_followMember (h p hp) hfile
    · intro h p hp
      exact Reference.succeeds_followMember (fun q hq file hfile => h file ⟨q, hsub q hq, hfile⟩)
        fun file hfile => h file ⟨p, hp, hfile⟩
  cases d with
  | process p =>
    rw [follow, Outcome.succeeds_bind_iff_left fun _ => Outcome.succeeds_pure _]
    simpa [RunsFile, processes] using hmembers [] [p] (by simp)
  | graph g =>
    rw [follow, Outcome.succeeds_bind_iff_left fun _ => Outcome.succeeds_pure _,
      Outcome.succeeds_mapM_iff]
    exact hmembers g.members g.members fun _ hp => hp

/-- Two ways to find files that give the same for the references of a document follow them
alike, unless the first one ends with an error of some kind. -/
theorem sameUnless_follow {stops : LoadError → Prop}
    (h : ∀ file, d.RunsFile file → (external file).SameUnless stops (external' file)) :
    (d.follow external).SameUnless stops (d.follow external') := by
  cases d with
  | process p =>
    refine Outcome.SameUnless.bind (Reference.sameUnless_followMember (by simp)
      fun file hfile => ?_) fun _ _ => .refl _
    exact h file ⟨p, List.mem_singleton.mpr rfl, hfile⟩
  | graph g =>
    refine Outcome.SameUnless.bind (.mapM fun p hp => ?_) fun _ _ => .refl _
    exact Reference.sameUnless_followMember (fun q hq file hfile => h file ⟨q, hq, hfile⟩)
      fun file hfile => h file ⟨p, hp, hfile⟩

/-- Two ways to find files that agree on the references of a document follow them alike. -/
theorem follow_congr (h : ∀ file, d.RunsFile file → external file = external' file) :
    d.follow external = d.follow external' := by
  have hsame : (d.follow external).SameUnless (fun _ => False) (d.follow external') :=
    sameUnless_follow fun file hfile => .inl (h file hfile).symm
  exact (hsame.eq nofun).symm

/-- The document whose references were followed is of the same kind. Its processes are those of
the document, with their references followed. -/
theorem forall₂_of_result_follow (h : (d.follow external).result = .ok d') :
    List.Forall₂ (fun p p' => (Reference.followMember external d.bundle p).result = .ok p')
      d.processes d'.processes := by
  cases d with
  | process p =>
    obtain ⟨p', hp', h⟩ := Outcome.result_bind_eq_ok_iff.mp h
    obtain rfl := Outcome.result_pure_eq_ok_iff.mp h
    exact .cons hp' .nil
  | graph g =>
    obtain ⟨members, hmembers, h⟩ := Outcome.result_bind_eq_ok_iff.mp h
    obtain rfl := Outcome.result_pure_eq_ok_iff.mp h
    exact Outcome.result_mapM_eq_ok_iff.mp hmembers

/-- Following the references of a document keeps the ids of its processes. -/
theorem ids_of_result_follow (h : (d.follow external).result = .ok d') :
    d'.processes.map (·.id?) = d.processes.map (·.id?) := by
  have hids : List.Forall₂ (fun p p' : Process => p.id? = p'.id?) d.processes d'.processes :=
    (forall₂_of_result_follow h).imp fun p p' hp => by
      rw [ProcessOf.id?, ProcessOf.id?, Run.header_of_result_followIn hp]
  have hmap : List.Forall₂ (· = ·) (d.processes.map (·.id?)) (d'.processes.map (·.id?)) := by
    rwa [List.forall₂_map_left_iff, List.forall₂_map_right_iff]
  exact (List.forall₂_eq_eq_eq ▸ hmap).symm

/-- What a bundle has to offer is a matter of its ids. -/
theorem offers_graph_iff {g : Graph} {fragment : Option String} :
    (graph g).Offers fragment ↔ match fragment with
      | some name => ∃ id ∈ g.members.map (·.id?), id.map memberName = some (memberName name)
      | none => (∃ id ∈ g.members.map (·.id?), id.map memberName = some "main") ∨
          (g.members.map (·.id?)).length = 1 := by
  cases fragment with
  | some name => simp [Offers]
  | none => simp [Offers, List.length_eq_one_iff]

/-- Following the references of a document keeps which processes it has to offer. -/
theorem offers_of_result_follow (h : (d.follow external).result = .ok d')
    {fragment : Option String} : d'.Offers fragment ↔ d.Offers fragment := by
  have hids := ids_of_result_follow h
  -- A process stays a process, and a bundle stays a bundle with the same ids.
  cases d with
  | process p =>
    obtain ⟨p', -, h⟩ := Outcome.result_bind_eq_ok_iff.mp h
    obtain rfl := Outcome.result_pure_eq_ok_iff.mp h
    exact Iff.rfl
  | graph g =>
    obtain ⟨members, -, h⟩ := Outcome.result_bind_eq_ok_iff.mp h
    obtain rfl := Outcome.result_pure_eq_ok_iff.mp h
    rw [offers_graph_iff, offers_graph_iff]
    rw [processes, processes] at hids
    simp only [hids]

end Document

/-! ## Picking a process -/

/-- The member of a bundle that a reference with this fragment means. -/
def Graph.pick? (g : Graph) : Option String → Option Process
  | some name => g.find? name
  | none => (g.find? "main").or (match g.members with
    | [only] => some only
    | _ => none)

namespace Reference

/-- From a bundle, a reference picks the member that it means. -/
theorem select_graph_eq_ok_iff {g : Graph} {fragment : Option String} {path : String}
    {p : Process} : select (.graph g) fragment path = .ok p ↔ g.pick? fragment = some p := by
  cases fragment with
  | some name =>
    simp only [select, Graph.pick?]
    cases g.find? name <;> simp
  | none =>
    simp only [select, Graph.pick?]
    generalize (g.find? "main").or _ = picked
    cases picked <;> simp

/-- A document has the process that a reference means exactly if it has one to offer. -/
theorem select_succeeds_iff {d : Document} {fragment : Option String} {path : String} :
    (∃ p, select d fragment path = .ok p) ↔ d.Offers fragment := by
  have hfind (members : List Process) (name : String) :
      (∃ p, findMember members name = some p) ↔
        ∃ p ∈ members, p.id?.map memberName = some (memberName name) := by
    rw [← Option.isSome_iff_exists, findMember, List.find?_isSome]
    simp
  cases d with
  | process p => simp [select, Document.Offers]
  | graph g =>
    simp only [select_graph_eq_ok_iff]
    cases fragment with
    | some name => exact hfind g.members name
    | none =>
      -- Without a name, `main` comes before the only member.
      have hmain : memberName "main" = "main" := by decide
      have hor (a b : Option Process) :
          (∃ p, a.or b = some p) ↔ (∃ p, a = some p) ∨ ∃ p, b = some p := by
        cases a <;> simp
      rw [Graph.pick?, hor, Document.Offers, ← hmain]
      refine or_congr (hfind g.members "main") ?_
      rcases g.members with _ | ⟨p, _ | ⟨q, rest⟩⟩ <;> simp

/-- A process that is selected from a document is one of its processes. -/
theorem mem_processes_of_select {d : Document} {fragment : Option String} {path : String}
    {p : Process} (h : select d fragment path = .ok p) : p ∈ d.processes := by
  cases d with
  | process q =>
    obtain rfl := Except.ok.inj h
    exact List.mem_singleton.mpr rfl
  | graph g =>
    -- A member is picked by its name, or because it is the only one.
    have hfind {name : String} (h : g.find? name = some p) : p ∈ g.members := mem_of_findMember h
    rw [select_graph_eq_ok_iff] at h
    cases fragment with
    | some name => exact hfind h
    | none =>
      rcases Option.or_eq_some_iff.mp h with hmain | ⟨-, honly⟩
      · exact hfind hmain
      · split at honly
        next only hmembers =>
          obtain rfl := Option.some.inj honly
          rw [Document.processes, hmembers]
          exact List.mem_singleton.mpr rfl
        · cases honly

end Reference

/-! ## The two stages -/

namespace Loader

/-- The normal form of a raw tree: one process, or every member of a bundle. -/
def normalTree (raw : Value) : Except LoadError Document :=
  match raw.get? "$graph" with
  | none => do return .process (← Normal.process raw)
  | some (.sequence raws) => do
      return .graph ⟨raw.text? "cwlVersion", ← raws.mapM Normal.process⟩
  | some other =>
      .error (.conversion
        { target := "GraphRecord",
          mismatch := ⟨[.key "$graph"], .notSequence other.kind⟩,
          payload := raw })

/-- Loading a tree brings it into normal form and then follows the references, if it is to. -/
theorem loadTree_eq (resolve : Bool) (external : String → Outcome Process) (raw : Value) :
    loadTree resolve external raw = (do
      let d ← Outcome.ofExcept (normalTree raw)
      if resolve then d.follow external else return d) := by
  -- A document is followed by its kind, so that its kind may as well be chosen before.
  have comp {α : Type} (x : Except LoadError α) (f : α → Document)
      (next : Document → Outcome Document) :
      (do let a ← Outcome.ofExcept x; next (f a)) =
        (do let d ← Outcome.ofExcept (do let a ← x; return f a); next d) := by
    cases x <;> rfl
  unfold loadTree normalTree
  match raw.get? "$graph" with
  | none =>
    exact comp (Normal.process raw) .process fun d =>
      if resolve then d.follow external else return d
  | some (.sequence raws) =>
    exact comp (raws.mapM Normal.process) (fun members => .graph ⟨raw.text? "cwlVersion", members⟩)
      fun d => if resolve then d.follow external else return d
  | some .null | some (.bool _) | some (.int _) | some (.float _) | some (.string _)
  | some (.mapping _) => rfl

/-- Two ways to find files load a tree alike, unless the first one ends with an error of some
kind. -/
theorem sameUnless_loadTree {stops : LoadError → Prop}
    {external external' : String → Outcome Process}
    (h : ∀ file, (external file).SameUnless stops (external' file)) (resolve : Bool) (raw : Value) :
    (loadTree resolve external raw).SameUnless stops (loadTree resolve external' raw) := by
  rw [loadTree_eq, loadTree_eq]
  refine Outcome.SameUnless.bind (.refl _) fun d _ => ?_
  split
  · exact Document.sameUnless_follow fun file _ => h file
  · exact .refl _

/-- Without following references, loading a tree gives its normal form. -/
theorem loadTree_false (external : String → Outcome Process) (raw : Value) :
    loadTree false external raw = Outcome.ofExcept (normalTree raw) := by
  rw [loadTree_eq]
  exact bind_pure _

/-- Loading a tree with its references followed. -/
theorem loadTree_true (external : String → Outcome Process) (raw : Value) :
    loadTree true external raw = (do
      let d ← Outcome.ofExcept (normalTree raw)
      d.follow external) := by
  rw [loadTree_eq]
  rfl

end Loader

end CanonicalCwl
