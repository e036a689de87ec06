import CanonicalCwl.Proofs.Loader.File
import CanonicalCwl.Proofs.Process.Canonical

/-!
# Loaded Documents Read Back

A document that was loaded, with the processes of other files and members put in place, is
written as a tree from which it is read as a canonical document: a bundle by its `graph`, and a
single process by the class that it names.

- `Document.Canonical`: what is needed of a document.
- `Loader.canonical_of_loadFile`: every loaded document fulfils it.
- `Loader.ofCanonical_toTree`: every loaded document is read back.
-/

namespace CanonicalCwl

open Result

/-! ## Documents -/

namespace Document

/-- What is needed to read a document back: its processes hold no null, and a single process
names its own class. -/
structure Canonical (d : Document) : Prop where
  noNull : ∀ p ∈ d.processes, p.NoNull
  className : ∀ p, d = .process p → p.header.className = some p.classTag.name

/-- What a document is written as is read as the document. -/
theorem Canonical.ofCanonical_eq {d : Document} (h : d.Canonical) :
    ofCanonical d.toTree = .ok d := by
  cases d with
  | process p =>
    have hdecode : Normal.decode p.classTag p.toTree = .ok p :=
      mapError_eq_ok_iff.mpr (ProcessOf.decode_toTree (h.noNull p (List.mem_singleton.mpr rfl)))
    have htag : ClassTag.ofDocument p.toTree = .ok p.classTag := by
      rw [ClassTag.ofDocument_eq_ok_iff, ProcessOf.get?_class_toTree, h.className p rfl,
        Option.map_some]
    rw [ofCanonical, toTree, ProcessOf.get?_graph_toTree, if_neg (by simp)]
    simp only [htag, bind_eq_ok_iff, pure_eq_ok_iff]
    exact ⟨p.classTag, rfl, p, hdecode, rfl⟩
  | graph g =>
    have hgraph : (g.toTree.get? "graph").isSome := by
      simp [Graph.toTree, Entries.optionalText, Entries.get?_cons]
    rw [ofCanonical, toTree, if_pos hgraph, Graph.decode_toTree h.noNull]
    rfl

end Document

/-! ## References that are followed -/

/-- No null comes into a process if none is in the processes that are put in place. -/
theorem Run.noNull_of_result_followIn {follow : String → Outcome (Option Process)}
    (hfollow : ∀ target q, (follow target).result = .ok (some q) → q.NoNull) {p p' : Process}
    (hp : p.NoNull) (h : (followIn follow p).result = .ok p') : p'.NoNull := by
  induction hp generalizing p' with
  | commandLineTool hheader =>
    rw [followIn, Outcome.result_pure_eq_ok_iff] at h
    exact h ▸ .commandLineTool hheader
  | expressionTool hheader =>
    rw [followIn, Outcome.result_pure_eq_ok_iff] at h
    exact h ▸ .expressionTool hheader
  | workflow hheader hinputs hruns ih =>
    obtain ⟨steps, rfl, hsteps⟩ := result_followIn_workflow.mp h
    refine .workflow hheader (fun t ht => ?_) fun t ht q hq => ?_
    · obtain ⟨s, hs, heq, -⟩ := exists_of_mem_right hsteps ht
      rw [heq]
      exact hinputs s hs
    · obtain ⟨s, hs, -, hrun⟩ := exists_of_mem_right hsteps ht
      rw [hq] at hrun
      -- The process was put in place now, or stood there before.
      generalize hr : s.run = r at hrun
      cases hrun with
      | found hfound => exact hfollow _ q hfound
      | inline hinside => exact ih s hs _ hr hinside

/-- Following the references of a process keeps its class. -/
theorem Run.classTag_of_result_followIn {follow : String → Outcome (Option Process)}
    {p p' : Process} (h : (followIn follow p).result = .ok p') : p'.classTag = p.classTag := by
  cases p with
  | commandLineTool t | expressionTool t =>
    rw [followIn, Outcome.result_pure_eq_ok_iff] at h
    rw [← h]
  | workflow w =>
    obtain ⟨steps, rfl, -⟩ := result_followIn_workflow.mp h
    rfl

namespace Reference

variable {external : String → Outcome Process} {bundle : List Process}

/-- What a reference is replaced by holds no null if neither the members of the bundle nor the
processes of other files do. -/
theorem noNull_of_result_follow (hbundle : ∀ p ∈ bundle, p.NoNull)
    (hexternal : ∀ target q, (external target).result = .ok q → q.NoNull)
    (room : Nat) (seen : List String) {target : String} {q : Process}
    (h : (follow external bundle room seen target).result = .ok (some q)) : q.NoNull := by
  cases meaning bundle seen target with
  | file hfile =>
    rw [follow_file hfile, Outcome.result_bind_eq_ok_iff] at h
    obtain ⟨p, hp, h⟩ := h
    obtain rfl := Option.some.inj (Outcome.result_pure_eq_ok_iff.mp h)
    exact hexternal target p hp
  | absent hlocal hfind =>
    rw [follow_absent hlocal hfind] at h
    cases Outcome.result_pure_eq_ok_iff.mp h
  | tool hlocal hfind htool =>
    rw [follow_tool hlocal hfind htool] at h
    obtain rfl := Option.some.inj (Outcome.result_pure_eq_ok_iff.mp h)
    exact hbundle _ (mem_of_findMember hfind)
  | enclosing hlocal hfind hseen =>
    rw [follow_enclosing hlocal hfind hseen] at h
    cases Outcome.result_pure_eq_ok_iff.mp h
  | workflow hlocal hfind hseen =>
    cases room with
    | zero =>
      rw [follow_workflow_zero hlocal hfind hseen] at h
      cases Outcome.result_pure_eq_ok_iff.mp h
    | succ room =>
      rw [follow_workflow hlocal hfind hseen, Outcome.result_bind_eq_ok_iff] at h
      obtain ⟨p, hp, h⟩ := h
      obtain rfl := Option.some.inj (Outcome.result_pure_eq_ok_iff.mp h)
      exact Run.noNull_of_result_followIn
        (fun _ _ => noNull_of_result_follow hbundle hexternal room _)
        (hbundle _ (mem_of_findMember hfind)) hp
termination_by room

end Reference

namespace Document

/-- A document keeps to what is needed when its references are followed. -/
theorem Canonical.of_result_follow {d d' : Document} {external : String → Outcome Process}
    (h : d.Canonical) (hexternal : ∀ target q, (external target).result = .ok q → q.NoNull)
    (hfollow : (d.follow external).result = .ok d') : d'.Canonical := by
  have hprocesses := forall₂_of_result_follow hfollow
  have hbundle : ∀ p ∈ d.bundle, p.NoNull := fun p hp => h.noNull p (mem_processes_of_mem_bundle hp)
  constructor
  case noNull =>
    intro p' hp'
    obtain ⟨p, hp, hresult⟩ := exists_of_mem_right hprocesses hp'
    exact Run.noNull_of_result_followIn
      (fun _ _ => Reference.noNull_of_result_follow hbundle hexternal _ _) (h.noNull p hp) hresult
  case className =>
    rintro p' rfl
    cases d with
    | process p =>
      obtain ⟨hresult, -⟩ := List.forall₂_cons.mp hprocesses
      rw [Run.header_of_result_followIn hresult, Run.classTag_of_result_followIn hresult]
      exact h.className p rfl
    | graph g =>
      -- A bundle stays one.
      obtain ⟨members, -, heq⟩ := Outcome.result_bind_eq_ok_iff.mp hfollow
      cases Outcome.result_pure_eq_ok_iff.mp heq

end Document

namespace Loader

variable {fs : Files} {settings : Settings}

/-- The normal form of a raw tree fulfils what is needed to read it back. -/
theorem canonical_normalTree {raw : Value} {d : Document} (h : normalTree raw = .ok d) :
    d.Canonical := by
  have hnull {raw : Value} {p : Process} (h : Normal.process raw = .ok p) : p.NoNull := by
    simp only [Normal.process, bind_eq_ok_iff] at h
    obtain ⟨tag, -, normal, -, hp⟩ := h
    exact ProcessOf.noNull_of_decode (mapError_eq_ok_iff.mp hp)
  rw [normalTree] at h
  split at h
  · simp only [bind_eq_ok_iff, pure_eq_ok_iff] at h
    obtain ⟨p, hp, rfl⟩ := h
    constructor
    case noNull =>
      intro q hq
      obtain rfl := List.mem_singleton.mp hq
      exact hnull hp
    case className =>
      intro q hq
      obtain rfl := Document.process.inj hq
      exact Normal.className_of_process hp
  · simp only [bind_eq_ok_iff, pure_eq_ok_iff, mapM_eq_ok_iff] at h
    obtain ⟨members, hmembers, rfl⟩ := h
    constructor
    case noNull =>
      intro q hq
      obtain ⟨raw, -, hraw⟩ := exists_of_mem_right hmembers hq
      exact hnull hraw
    case className =>
      intro q hq
      cases hq
  · cases h

/-- A document that was loaded fulfils what is needed to read it back. -/
theorem canonical_of_loadFile {room : Nat} {stack : List Location} {path : String} {d : Document}
    (h : (loadFile fs settings room stack path).result = .ok d) : d.Canonical := by
  -- The induction is on the room: a file is loaded for a reference one file deeper.
  induction room generalizing stack path d with
  | zero =>
    obtain ⟨_, _, _, -, -, hzero, -⟩ := exists_of_result_loadFile h
    cases hzero
  | succ room ih =>
    obtain ⟨_, _, raw, -, -, hroom, -, h⟩ := exists_of_result_loadFile h
    obtain rfl := Nat.succ.inj hroom
    rw [loadTree_eq, Outcome.result_bind_eq_ok_iff] at h
    obtain ⟨e, he, h⟩ := h
    have hcanonical := canonical_normalTree he
    split at h
    · refine hcanonical.of_result_follow (fun target q hq => ?_) h
      rw [external_eq, Outcome.result_bind_eq_ok_iff] at hq
      obtain ⟨f, hf, hq⟩ := hq
      exact (ih hf).noNull q (Reference.mem_processes_of_select hq)
    · obtain rfl := Outcome.result_pure_eq_ok_iff.mp h
      exact hcanonical

/-- What a loaded document is written as is read as the document, by the shape of a bundle if it
has a `graph` and as a process of the class that it names otherwise. -/
theorem ofCanonical_toTree (fs : Files) (settings : Settings) (path : String) {d : Document}
    (h : (load fs settings path).result = .ok d) : Document.ofCanonical d.toTree = .ok d :=
  (canonical_of_loadFile h).ofCanonical_eq

/-- The workflow of two files, with the tool put in place, is read back. -/
theorem ofCanonical_toTree_twoFiles :
    ∃ d, (load twoFiles .default "flow").result = .ok d ∧
      Document.ofCanonical d.toTree = .ok d := by
  obtain ⟨d, hd⟩ := exists_load_twoFiles
  exact ⟨d, hd, ofCanonical_toTree twoFiles .default "flow" hd⟩

end Loader

end CanonicalCwl
