import CanonicalCwl.Proofs.Loader.Tree
import CanonicalCwl.Proofs.Process.Cwl

/-!
# Documents Written as CWL and Loaded Again

Loading what a canonical document is written as gives the document back, without following
references, up to what the raw form settles: the class of a process is its own, and the types
of its parameters are read from their notation.

- `Loader.ofTree_toCwl`: the round trip of every document that was read from a tree.
-/

namespace CanonicalCwl

open Result

namespace Document

/-- The documents that the typed reading of some tree gives: a process of a class that is given
or that it is tagged with, or a bundle. -/
inductive Decoded : Document → Prop
  | process {tag : ClassTag} {v : Value} {p : Process} :
      ProcessOf.decode tag v = .ok p → Decoded (.process p)
  | tagged {v : Value} {p : Process} : ProcessOf.decodeTagged v = .ok p → Decoded (.process p)
  | graph {v : Value} {g : Graph} : Graph.decode v = .ok g → Decoded (.graph g)

/-- The document with the names of the classes and with types read from their notation, in every
process and in those within it. -/
def reread : Document → Document
  | process p => process p.reread
  | graph g => graph { g with members := g.members.map ProcessOf.reread }

/-- The processes of a document that was read hold no null. -/
theorem Decoded.noNull {d : Document} (h : d.Decoded) {p : Process} (hp : p ∈ d.processes) :
    p.NoNull := by
  cases h with
  | process h =>
    obtain rfl := List.mem_singleton.mp hp
    exact ProcessOf.noNull_of_decode h
  | tagged h =>
    obtain rfl := List.mem_singleton.mp hp
    exact ProcessOf.noNull_of_decodeTagged h
  | graph h => exact Graph.noNull_of_decode h hp

/-- A document stays as it is if its processes do. -/
theorem reread_eq_self {d : Document} (h : ∀ p ∈ d.processes, p.reread = p) : d.reread = d := by
  cases d with
  | process p => rw [reread, h p (List.mem_singleton.mpr rfl)]
  | graph g =>
    have hmembers : g.members.map ProcessOf.reread = g.members :=
      (List.map_congr_left h).trans (List.map_id' _)
    rw [reread, hmembers]

end Document

namespace Loader

/-- A process that was written is not taken for a bundle. -/
theorem get?_graph_toCwl (p : Process) : p.toCwl.get? "$graph" = none := by
  -- No field of a process has the key of a bundle, whatever its class.
  have hown (tag : ClassTag) (h : Header) (own : Mapping)
      (hget : Entries.get? own "$graph" = none) :
      (h.toCwl tag (h.entries ++ own ++ h.footer)).get? "$graph" = none := by
    rw [Header.toCwl_eq, Value.get?_mapping, Entries.get?_cons, if_neg (by decide),
      Entries.get?_mapWithKey, Entries.get?_erase, if_neg (by decide)]
    simp [Header.entries, Header.footer, Entries.optionalText, Entries.listedTexts,
      Entries.listedMappings, hget]
  cases p with
  | commandLineTool t =>
    rw [ProcessOf.toCwl, Run.processToCwl, t.entries_eq]
    refine hown _ _ _ ?_
    simp [CommandLineTool.ownEntries, Entries.optionalText, Entries.listedTexts,
      Entries.listedInts]
  | expressionTool t => exact hown _ _ _ (by simp [Entries.get?_cons])
  | workflow w => exact hown _ _ _ (by simp)

/-- The normal form of a document that was written is what is read of it. -/
theorem normalTree_toCwl {d : Document} (h : ∀ p ∈ d.processes, p.NoNull) :
    normalTree d.toCwl = .ok d.reread := by
  cases d with
  | process p =>
    have hnormal := Normal.process_toCwl (h p (List.mem_singleton.mpr rfl))
    rw [normalTree, Document.toCwl, get?_graph_toCwl]
    simp only [hnormal]
    rfl
  | graph g =>
    -- The members of a bundle are brought into normal form one by one.
    have hmembers : (g.members.map ProcessOf.toCwl).mapM Normal.process =
        .ok (g.members.map ProcessOf.reread) := by
      rw [mapM_eq_ok_iff, List.forall₂_map_left_iff, List.forall₂_map_right_iff, List.forall₂_same]
      exact fun p hp => Normal.process_toCwl (h p hp)
    have hget : (Document.graph g).toCwl.get? "$graph" =
        some (.sequence (g.members.map ProcessOf.toCwl)) := by
      simp [Document.toCwl, Entries.optionalText, Entries.get?_cons]
    have hversion : (Document.graph g).toCwl.text? "cwlVersion" = g.cwlVersion := by
      simp [Document.toCwl, Entries.optionalText, Entries.get?_cons]
    rw [normalTree, hget]
    simp only [hmembers, hversion]
    rfl

/-- Loading what a document is written as, without following references, gives the document
that has the names of the classes and whose types are read from their notation, and reports
nothing. It is the same document if every process within it names its own class, and all types
of parameters are such that some notation stands for them. -/
theorem ofTree_toCwl (fs : Files) (settings : Settings) (hresolve : settings.resolve = false)
    (origin : String) {d : Document} (hd : d.Decoded) :
    ofTree fs settings d.toCwl origin = Outcome.pure d.reread ∧
    (∀ context t, TypeExpr.resolve context (TypeExpr.toCwl t) = .ok t.reread) ∧
    ((∀ p ∈ d.processes, ∀ q : Process, q.Within p →
        q.header.className = some q.classTag.name ∧
          ∀ t ∈ q.header.types, ∃ context v, TypeExpr.resolve context v = .ok t) →
      d.reread = d) := by
  refine ⟨?_, TypeExpr.resolve_toCwl, fun h => ?_⟩
  · rw [ofTree, hresolve, loadTree_false, normalTree_toCwl fun p hp => hd.noNull hp]
    rfl
  · exact Document.reread_eq_self fun p hp => ProcessOf.reread_eq_self (h p hp)

/-- A tool with an optional list of texts as its input. -/
def printer : CommandLineTool where
  id := none
  className := some "CommandLineTool"
  cwlVersion := none
  label := none
  doc := ["Print."]
  inputs := [⟨some "words", none, [], some (.optional (.array (.named "string"))),
    some (.list [.string "hello"]), none, none, none, none⟩]
  outputs := []
  requirements := []
  hints := []
  namespaces := none
  schemas := none
  baseCommand := ["echo"]
  arguments := []
  stdin := none
  stdout := none
  stderr := none
  successCodes := [0]
  temporaryFailCodes := []
  permanentFailCodes := []

/-- A workflow that runs the tool in place. -/
def printing : Workflow where
  id := some "main"
  className := some "Workflow"
  cwlVersion := some "v1.2"
  label := none
  doc := []
  inputs := []
  outputs := []
  requirements := []
  hints := []
  namespaces := none
  schemas := none
  steps := [⟨some "print", none, [], [⟨some "words", ["list"], none, none, none⟩], [⟨"out"⟩],
    .inline (.commandLineTool printer), [], [], [], none⟩]

/-- A workflow that runs a tool in place comes back as it was written. -/
theorem ofTree_toCwl_printing :
    ofTree ⟨[], [], []⟩ ⟨false, 32⟩ (Document.process (.workflow printing)).toCwl "" =
      Outcome.pure (.process (.workflow printing)) := by
  have hdecoded : (Document.process (.workflow printing)).Decoded := by
    have hdecode : ProcessOf.decode .workflow (ProcessOf.toTree (.workflow printing)) =
        .ok (.workflow printing) := rfl
    exact .process hdecode
  obtain ⟨hload, -, hsame⟩ := ofTree_toCwl ⟨[], [], []⟩ ⟨false, 32⟩ rfl "" hdecoded
  rw [hload, hsame]
  intro p hp q hq
  obtain rfl := List.mem_singleton.mp hp
  cases hq with
  | self => exact ⟨rfl, by simp [ProcessOf.header, printing, Header.types]⟩
  | step hs hrun hq =>
    obtain rfl := List.mem_singleton.mp hs
    obtain rfl := Run.inline.inj hrun
    cases hq
    refine ⟨rfl, fun t ht => ⟨"", .string "string[]?", ?_⟩⟩
    obtain rfl := List.mem_singleton.mp ht
    rfl

end Loader

end CanonicalCwl
