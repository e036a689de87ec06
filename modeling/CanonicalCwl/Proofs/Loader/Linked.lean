import CanonicalCwl.Proofs.Loader.Bundle

/-!
# What Following References Leaves Alone

Following the references of a document changes nothing but what its steps run, and that only where
a step runs a path: the path may become a process. Whatever else is in the document stays, down to
the workflows that are run in place.

- `Document.Linked`: what a document may become.
- `Loader.ofTree_linked`: a document that is loaded with its references followed is what the same
  document may become when it is loaded as it is.
-/

namespace CanonicalCwl

/-! ## Linked documents -/

mutual

/-- A path may become a process, and one to a member may also stay. In a process that is run in
place, steps are linked in turn. -/
inductive Run.Linked : Run → Run → Prop
  | found (target : String) (p : Process) : Run.Linked (.path target) (.inline p)
  | dangling {target : String} (h : Reference.isLocal target = true) :
      Run.Linked (.path target) (.path target)
  | inline {p p' : Process} (h : ProcessOf.Linked p p') : Run.Linked (.inline p) (.inline p')

/-- A tool stays, and a workflow keeps all but its steps. -/
inductive ProcessOf.Linked : Process → Process → Prop
  | commandLineTool (t : CommandLineTool) :
      ProcessOf.Linked (.commandLineTool t) (.commandLineTool t)
  | expressionTool (t : ExpressionTool) : ProcessOf.Linked (.expressionTool t) (.expressionTool t)
  | workflow {w : Workflow} {steps : List Step} (h : StepOf.AllLinked w.steps steps) :
      ProcessOf.Linked (.workflow w) (.workflow { w with steps })

/-- The steps stay in their order, and each keeps all but what it runs. -/
inductive StepOf.AllLinked : List Step → List Step → Prop
  | nil : StepOf.AllLinked [] []
  | cons {s : Step} {run : Run} {rest rest' : List Step} (h : Run.Linked s.run run)
      (hrest : StepOf.AllLinked rest rest') :
      StepOf.AllLinked (s :: rest) ({ s with run } :: rest')

end

/-- The processes of a document are linked one by one, and a bundle keeps its version. -/
inductive Document.Linked : Document → Document → Prop
  | process {p p' : Process} (h : p.Linked p') : Linked (.process p) (.process p')
  | graph {cwlVersion : Option String} {members members' : List Process}
      (h : List.Forall₂ ProcessOf.Linked members members') :
      Linked (.graph ⟨cwlVersion, members⟩) (.graph ⟨cwlVersion, members'⟩)

/-- Steps that keep all but what they run, which is linked. -/
theorem StepOf.allLinked_of_forall₂ {steps steps' : List Step}
    (h : List.Forall₂ (fun s t => t = { s with run := t.run } ∧ Run.Linked s.run t.run)
      steps steps') : AllLinked steps steps' := by
  induction h with
  | nil => exact .nil
  | cons h _ ih =>
    rw [h.1]
    exact .cons h.2 ih

/-! ## References that are followed -/

/-- Following the references of a process links its steps, if only a path to a member may be left
dangling. -/
theorem Run.linked_of_result_followIn {follow : String → Outcome (Option Process)}
    (hfollow : ∀ target, (follow target).result = .ok none → Reference.isLocal target = true)
    {p p' : Process} (h : (followIn follow p).result = .ok p') : p.Linked p' := by
  induction p using ProcessOf.induction generalizing p' with
  | commandLineTool t =>
    rw [followIn, Outcome.result_pure_eq_ok_iff] at h
    exact h ▸ .commandLineTool t
  | expressionTool t =>
    rw [followIn, Outcome.result_pure_eq_ok_iff] at h
    exact h ▸ .expressionTool t
  | workflow w ih =>
    obtain ⟨steps, rfl, hsteps⟩ := result_followIn_workflow.mp h
    have hmem := (List.forall₂_and_left w.steps steps).mpr ⟨fun _ hs => hs, hsteps⟩
    refine .workflow (StepOf.allLinked_of_forall₂ (hmem.imp ?_))
    rintro s t ⟨hs, heq, hrun⟩
    refine ⟨heq, ?_⟩
    -- The path became a process or was left, or the step runs a process in place.
    generalize hr : s.run = r at hrun ⊢
    generalize t.run = r' at hrun ⊢
    cases hrun with
    | found _ => exact .found _ _
    | dangling hnone => exact .dangling (hfollow _ hnone)
    | inline hinside => exact .inline (ih s hs _ hr hinside)

namespace Reference

variable {external : String → Outcome Process} {bundle : List Process}

/-- A path to a file is not left dangling. -/
theorem isLocal_of_result_follow {room : Nat} {seen : List String} {target : String}
    (h : (follow external bundle room seen target).result = .ok none) : isLocal target = true := by
  by_contra hlocal
  rw [follow_file (Bool.eq_false_iff.mpr hlocal), Outcome.result_bind_eq_ok_iff] at h
  obtain ⟨p, -, h⟩ := h
  cases Outcome.result_pure_eq_ok_iff.mp h

/-- Following the references of a member of a bundle links its steps. -/
theorem linked_of_result_followMember {p p' : Process}
    (h : (followMember external bundle p).result = .ok p') : p.Linked p' :=
  Run.linked_of_result_followIn (fun _ => isLocal_of_result_follow) h

end Reference

/-- Following the references of a document links the steps of its processes. -/
theorem Document.linked_of_result_follow {external : String → Outcome Process} {d d' : Document}
    (h : (d.follow external).result = .ok d') : d.Linked d' := by
  cases d with
  | process p =>
    obtain ⟨p', hp', h⟩ := Outcome.result_bind_eq_ok_iff.mp h
    obtain rfl := Outcome.result_pure_eq_ok_iff.mp h
    exact .process (Reference.linked_of_result_followMember hp')
  | graph g =>
    obtain ⟨members, hmembers, h⟩ := Outcome.result_bind_eq_ok_iff.mp h
    obtain rfl := Outcome.result_pure_eq_ok_iff.mp h
    exact .graph ((Outcome.result_mapM_eq_ok_iff.mp hmembers).imp
      fun _ _ => Reference.linked_of_result_followMember)

/-! ## Loading -/

namespace Loader

/-- If a document can be loaded with its references followed, then it can be loaded as it is,
whatever the limit, and nothing is reported. The first result is the second one with some of the
paths that its steps run replaced by processes. -/
theorem ofTree_linked (fs : Files) (maxDepth : Nat) (raw : Value) (origin : String) {d' : Document}
    (h : (ofTree fs ⟨true, maxDepth⟩ raw origin).result = .ok d') :
    ∃ d, (∀ limit, ofTree fs ⟨false, limit⟩ raw origin = Outcome.pure d) ∧ d.Linked d' := by
  rw [ofTree, loadTree_true, Outcome.result_bind_eq_ok_iff] at h
  obtain ⟨d, hnormal, hfollow⟩ := h
  rw [Outcome.result_ofExcept] at hnormal
  refine ⟨d, fun limit => ?_, Document.linked_of_result_follow hfollow⟩
  rw [ofTree, loadTree_false, hnormal]
  rfl

/-- A bundle of two workflows. The first one runs a workflow in place, which runs the second one,
and there a path is left. -/
def enclosedMembers (run : Run) : List Process :=
  [.workflow (oneStep "outer" (.inline (.workflow (oneStep "inner" run)))),
    .workflow (oneStep "other" (.path "#missing"))]

/-- The path in the workflow that is run in place becomes the other member, and the path that leads
nowhere stays. -/
theorem ofTree_linked_enclosedMembers :
    let raw := Value.tagged "$graph"
      (.sequence ((enclosedMembers (.path "#other")).map ProcessOf.toCwl))
    let run := Run.inline (.workflow (oneStep "other" (.path "#missing")))
    (ofTree ⟨[], [], []⟩ .default raw "").result = .ok (.graph ⟨none, enclosedMembers run⟩) ∧
      (ofTree ⟨[], [], []⟩ ⟨false, 0⟩ raw "").result =
        .ok (.graph ⟨none, enclosedMembers (.path "#other")⟩) ∧
      (Document.graph ⟨none, enclosedMembers (.path "#other")⟩).Linked
        (.graph ⟨none, enclosedMembers run⟩) := by
  intro raw run
  have hload : (ofTree ⟨[], [], []⟩ .default raw "").result =
      .ok (.graph ⟨none, enclosedMembers run⟩) := rfl
  have hplain : (ofTree ⟨[], [], []⟩ ⟨false, 0⟩ raw "").result =
      .ok (.graph ⟨none, enclosedMembers (.path "#other")⟩) := rfl
  obtain ⟨d, hd, hlinked⟩ := ofTree_linked ⟨[], [], []⟩ Settings.defaultMaxDepth raw "" hload
  obtain rfl := Except.ok.inj (hplain.symm.trans (congrArg Outcome.result (hd 0)))
  exact ⟨hload, hplain, hlinked⟩

end Loader

end CanonicalCwl
