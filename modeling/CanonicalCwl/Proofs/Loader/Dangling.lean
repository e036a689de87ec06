import CanonicalCwl.Proofs.Loader.File

/-!
# Dangling References

Following the references of a document may leave paths in it, and each of them is to be reported.
`Document.dangling` are the paths that are left in a document, in its order and in the form in
which they are reported. They are compared with the reports along the way: piece by piece, since
a process that takes the place of a path brings its own dangling references with it.

- `Document.piecewise_follow`: how what is left in a document compares with what is reported.
- `Loader.ofTree_dangling`: every path that is left is reported, and exactly these are if the
  document refers to no files.
- `Loader.unresolved_load`: what is reported is left in one of the files that are loaded, which
  need not be the document that is given back.
-/

namespace CanonicalCwl

open Result

/-! ## What is left -/

namespace Run

mutual

/-- The paths that are left in what a step runs, as they are reported. -/
def danglingRun (workflow step : Option String) : Run → List UnresolvedReference
  | path target => [⟨workflow, step, target⟩]
  | inline p => danglingIn p

/-- The paths that are left in a process, as they are reported, in the order of its steps. -/
def danglingIn : ProcessOf Run → List UnresolvedReference
  | .commandLineTool _ => []
  | .expressionTool _ => []
  | .workflow w => danglingSteps w.id w.steps

/-- The paths that are left in the steps of a workflow, as they are reported. -/
def danglingSteps (workflow : Option String) : List (StepOf Run) → List UnresolvedReference
  | [] => []
  | s :: rest => danglingRun workflow s.id s.run ++ danglingSteps workflow rest

end

/-- The paths that are left in a workflow are those of its steps. -/
theorem danglingIn_workflow (w : Workflow) :
    danglingIn (.workflow w) = w.steps.flatMap fun s => danglingRun w.id s.id s.run := by
  have hsteps (steps : List Step) :
      danglingSteps w.id steps = steps.flatMap fun s => danglingRun w.id s.id s.run := by
    induction steps with
    | nil => rw [danglingSteps, List.flatMap_nil]
    | cons s rest ih => rw [danglingSteps, List.flatMap_cons, ih]
  rw [danglingIn, hsteps]

/-- Nothing is left in a tool. -/
theorem danglingIn_of_tool {p : Process} (h : p.workflow? = none) : danglingIn p = [] := by
  cases p with
  | workflow w => cases h
  | commandLineTool t | expressionTool t => rw [danglingIn]

/-- What is left in a process are the paths that steps of workflows within it run. -/
theorem mem_danglingIn_iff {p : Process} {r : UnresolvedReference} :
    r ∈ danglingIn p ↔ ∃ w : Workflow, ProcessOf.Within (.workflow w) p ∧
      ∃ s ∈ w.steps, s.run = path r.reference ∧ r.workflow = w.id ∧ r.step = s.id := by
  induction p using ProcessOf.induction with
  | commandLineTool t | expressionTool t =>
    rw [danglingIn]
    refine ⟨nofun, ?_⟩
    rintro ⟨w, hwithin, -⟩
    cases hwithin
  | workflow w ih =>
    rw [danglingIn_workflow, List.mem_flatMap]
    constructor
    · rintro ⟨s, hs, hr⟩
      match hrun : s.run with
      | path target =>
        rw [hrun, danglingRun, List.mem_singleton] at hr
        subst hr
        exact ⟨w, .self _, s, hs, hrun, rfl, rfl⟩
      | inline q =>
        rw [hrun, danglingRun] at hr
        obtain ⟨v, hwithin, hstep⟩ := (ih s hs q hrun).mp hr
        exact ⟨v, .step hs hrun hwithin, hstep⟩
    · rintro ⟨v, hwithin, t, ht, hpath, hworkflow, hstep⟩
      cases hwithin with
      | self =>
        refine ⟨t, ht, ?_⟩
        rw [hpath, danglingRun, List.mem_singleton, ← hworkflow, ← hstep]
      | @step q _ s hs hrun hwithin =>
        refine ⟨s, hs, ?_⟩
        rw [hrun, danglingRun]
        exact (ih s hs q hrun).mpr ⟨v, hwithin, t, ht, hpath, hworkflow, hstep⟩

end Run

/-- The paths that are left in a document, as they are reported, in the order of its processes
and their steps. -/
def Document.dangling (d : Document) : List UnresolvedReference :=
  d.processes.flatMap Run.danglingIn

/-- What is left in a document of one process is left in the process. -/
theorem Document.dangling_process (p : Process) : (process p).dangling = Run.danglingIn p :=
  List.append_nil _

/-- What is left in a process of a document is left in the document, in the same order. -/
theorem Document.danglingIn_sublist {d : Document} {p : Process} (hp : p ∈ d.processes) :
    (Run.danglingIn p).Sublist d.dangling :=
  List.sublist_flatten_of_mem (List.mem_map_of_mem hp)

/-! ## Comparing what is left with what is reported -/

/-- A comparison of what is left with what is reported that can be made piece by piece: a path
to a member that stays is reported there. -/
structure Piecewise (R : List UnresolvedReference → List UnresolvedReference → Prop) : Prop where
  nil : R [] []
  stays : ∀ r, Reference.isLocal r.reference = true → R [r] [r]
  append : ∀ {left reported left' reported'}, R left reported → R left' reported' →
    R (left ++ left') (reported ++ reported')

/-- What is left consists of paths to members, and is reported in this order among others. -/
def Reported (left reported : List UnresolvedReference) : Prop :=
  left.Sublist reported ∧ ∀ r ∈ left, Reference.isLocal r.reference = true

/-- What is reported is left or has some other property. -/
def LeftOr (P : UnresolvedReference → Prop) (left reported : List UnresolvedReference) : Prop :=
  ∀ r ∈ reported, r ∈ left ∨ P r

/-- What is left in one process of a document is reported with what is left in the document. -/
theorem Reported.of_mem {d : Document} {reported : List UnresolvedReference}
    (h : Reported d.dangling reported) {p : Process} (hp : p ∈ d.processes) :
    Reported (Run.danglingIn p) reported :=
  ⟨(Document.danglingIn_sublist hp).trans h.1,
    fun r hr => h.2 r ((Document.danglingIn_sublist hp).subset hr)⟩

namespace Piecewise

/-- That what is left is reported can be seen piece by piece. -/
theorem reported : Piecewise Reported where
  nil := ⟨.slnil, nofun⟩
  stays _ hlocal := ⟨.refl _, fun _ hr => List.mem_singleton.mp hr ▸ hlocal⟩
  append h h' := ⟨h.1.append h'.1, fun r hr => (List.mem_append.mp hr).elim (h.2 r) (h'.2 r)⟩

/-- That nothing else is reported can be seen piece by piece. -/
theorem eq : Piecewise (· = ·) where
  nil := rfl
  stays _ _ := rfl
  append h h' := h ▸ h' ▸ rfl

/-- That what is reported is left or has some other property can be seen piece by piece. -/
theorem leftOr (P : UnresolvedReference → Prop) : Piecewise (LeftOr P) where
  nil := nofun
  stays _ _ _ hr := .inl hr
  append h h' r hr := by
    rw [List.mem_append]
    rcases List.mem_append.mp hr with hr | hr
    · exact (h r hr).imp_left .inl
    · exact (h' r hr).imp_left .inr

variable {R : List UnresolvedReference → List UnresolvedReference → Prop}

/-- The comparison of lists that belong to each other, piece by piece. -/
theorem flatMap (hR : Piecewise R) {α β : Type} {left : β → List UnresolvedReference}
    {reported : α → List UnresolvedReference} {as : List α} {bs : List β}
    (h : List.Forall₂ (fun a b => R (left b) (reported a)) as bs) :
    R (bs.flatMap left) (as.flatMap reported) := by
  induction h with
  | nil => exact hR.nil
  | cons hab _ ih => exact hR.append hab ih

end Piecewise

/-- What an outcome reports compares with what is left in the process that it gives. -/
def Tallies (R : List UnresolvedReference → List UnresolvedReference → Prop)
    (x : Outcome Process) : Prop :=
  ∀ p, x.result = .ok p → R (Run.danglingIn p) x.unresolved

/-- What following a single reference reports compares with what is left in the process that was
found, and nothing is reported where a path to a member stays. -/
structure FollowTallies (R : List UnresolvedReference → List UnresolvedReference → Prop)
    (target : String) (x : Outcome (Option Process)) : Prop where
  found : ∀ p, x.result = .ok (some p) → R (Run.danglingIn p) x.unresolved
  stays : x.result = .ok none → Reference.isLocal target = true ∧ x.unresolved = []

section

variable {R : List UnresolvedReference → List UnresolvedReference → Prop} {target : String}

/-- A process that was found with all that it reports. -/
theorem Tallies.follow {x : Outcome Process} (h : Tallies R x) :
    FollowTallies R target (do return some (← x)) where
  found p hp := by
    obtain ⟨q, hq, hp⟩ := Outcome.result_bind_eq_ok_iff.mp hp
    obtain rfl := Option.some.inj (Outcome.result_pure_eq_ok_iff.mp hp)
    rw [Outcome.unresolved_bind_pure]
    exact h _ hq
  stays hnone := by
    obtain ⟨q, -, hnone⟩ := Outcome.result_bind_eq_ok_iff.mp hnone
    cases Outcome.result_pure_eq_ok_iff.mp hnone

/-- A path to a member that stays. -/
theorem followTallies_none (hlocal : Reference.isLocal target = true) :
    FollowTallies R target (pure none) where
  found _ hp := by cases Outcome.result_pure_eq_ok_iff.mp hp
  stays _ := ⟨hlocal, rfl⟩

end

/-! ## Following the references of a document -/

namespace Run

variable {follow : String → Outcome (Option Process)}
  {R : List UnresolvedReference → List UnresolvedReference → Prop}

/-- What is left in what a step runs compares with what following it reports. -/
theorem piecewise_followRun (hR : Piecewise R) {workflow step : Option String} {r r' : Run}
    (hpath : ∀ target, r = path target → FollowTallies R target (follow target))
    (hinline : ∀ p, r = inline p → Tallies R (followIn follow p))
    (h : (followRun follow workflow step r).result = .ok r') :
    R (danglingRun workflow step r') (followRun follow workflow step r).unresolved := by
  cases r with
  | inline p =>
    rw [followRun, Outcome.result_bind_eq_ok_iff] at h
    obtain ⟨p', hp', h⟩ := h
    obtain rfl := Outcome.result_pure_eq_ok_iff.mp h
    rw [followRun, Outcome.unresolved_bind_pure, danglingRun]
    exact hinline p rfl p' hp'
  | path target =>
    rw [followRun, Outcome.result_bind_eq_ok_iff] at h
    obtain ⟨found, hfound, h⟩ := h
    rw [followRun, Outcome.bind_eq_of_result_eq_ok hfound]
    cases found with
    | some p =>
      obtain rfl := Outcome.result_pure_eq_ok_iff.mp h
      rw [danglingRun]
      exact (List.append_nil _).symm ▸ (hpath target rfl).found p hfound
    | none =>
      -- The path stays, and nothing but the path is reported.
      obtain ⟨hlocal, hno⟩ := (hpath target rfl).stays hfound
      obtain rfl := Outcome.result_pure_eq_ok_iff.mp h
      rw [danglingRun, hno]
      exact hR.stays ⟨workflow, step, target⟩ hlocal

/-- What is left in a process compares with what following its references reports, if that holds
of the single references. -/
theorem tallies_followIn (hR : Piecewise R) {p : Process}
    (hfollow : ∀ target, p.Runs target → FollowTallies R target (follow target)) :
    Tallies R (followIn follow p) := by
  induction p using ProcessOf.induction with
  | commandLineTool t | expressionTool t =>
    intro p' h
    rw [followIn] at h ⊢
    obtain rfl := Outcome.result_pure_eq_ok_iff.mp h
    rw [danglingIn]
    exact hR.nil
  | workflow w ih =>
    intro p' h
    rw [followIn_workflow, Outcome.result_bind_eq_ok_iff] at h
    obtain ⟨steps, hsteps, h⟩ := h
    obtain rfl := Outcome.result_pure_eq_ok_iff.mp h
    rw [followIn_workflow, Outcome.unresolved_bind_pure, Outcome.unresolved_mapM hsteps,
      danglingIn_workflow]
    -- The comparison is made step by step.
    have hmem := (List.forall₂_and_left w.steps steps).mpr
      ⟨fun _ hs => hs, Outcome.result_mapM_eq_ok_iff.mp hsteps⟩
    refine hR.flatMap (hmem.imp ?_)
    rintro s t ⟨hs, hstep⟩
    rw [followStep, Outcome.result_bind_eq_ok_iff] at hstep
    obtain ⟨r, hr, hstep⟩ := hstep
    obtain rfl := Outcome.result_pure_eq_ok_iff.mp hstep
    rw [followStep, Outcome.unresolved_bind_pure]
    refine piecewise_followRun hR (fun target hrun => hfollow target (.path hs hrun)) ?_ hr
    exact fun q hrun => ih s hs q hrun fun target hruns => hfollow target (.inline hs hrun hruns)

end Run

namespace Reference

variable {external : String → Outcome Process} {bundle : List Process}
  {R : List UnresolvedReference → List UnresolvedReference → Prop}

/-- What is left in the place of a reference compares with what following it reports, if that
holds of the files that the bundle and the reference mean. -/
theorem followTallies_follow (hR : Piecewise R)
    (hbundle : ∀ p ∈ bundle, ∀ file, p.RunsFile file → Tallies R (external file))
    (room : Nat) (seen : List String) {target : String}
    (htarget : isLocal target = false → Tallies R (external target)) :
    FollowTallies R target (follow external bundle room seen target) := by
  cases meaning bundle seen target with
  | file h =>
    rw [follow_file h]
    exact (htarget h).follow
  | absent h hfind =>
    rw [follow_absent h hfind]
    exact followTallies_none h
  | @tool p h hfind htool =>
    -- A tool has no paths.
    have htallies : Tallies R (pure p) := by
      intro q hq
      obtain rfl := Outcome.result_pure_eq_ok_iff.mp hq
      rw [Run.danglingIn_of_tool htool]
      exact hR.nil
    rw [follow_tool h hfind htool]
    exact htallies.follow
  | enclosing h hfind hseen =>
    rw [follow_enclosing h hfind hseen]
    exact followTallies_none h
  | workflow h hfind hseen =>
    cases room with
    | zero =>
      rw [follow_workflow_zero h hfind hseen]
      exact followTallies_none h
    | succ room =>
      -- The references inside are those of a member.
      rw [follow_workflow h hfind hseen]
      refine (Run.tallies_followIn hR fun path hruns => ?_).follow
      exact followTallies_follow hR hbundle room _ fun hfile =>
        hbundle _ (mem_of_findMember hfind) path ⟨hruns, hfile⟩
termination_by room

/-- What is left in a member of a bundle compares with what following its references reports. -/
theorem tallies_followMember (hR : Piecewise R)
    (hbundle : ∀ p ∈ bundle, ∀ file, p.RunsFile file → Tallies R (external file))
    {p : Process} (hp : ∀ file, p.RunsFile file → Tallies R (external file)) :
    Tallies R (followMember external bundle p) :=
  Run.tallies_followIn hR fun target hruns =>
    followTallies_follow hR hbundle _ _ fun hfile => hp target ⟨hruns, hfile⟩

end Reference

/-- What following one of the references of a process reports is among what following all of
them reports. -/
theorem Run.unresolved_follow_subset {follow : String → Outcome (Option Process)} {p : Process}
    {target : String} (h : (followIn follow p).Succeeds) (hruns : p.Runs target) :
    (follow target).unresolved ⊆ (followIn follow p).unresolved := by
  -- The step is one of those that the workflow reports for.
  have hstep {w : Workflow} {s : Step} (h : (followIn follow (.workflow w)).Succeeds)
      (hs : s ∈ w.steps) : (followRun follow w.id s.id s.run).Succeeds ∧
        (followRun follow w.id s.id s.run).unresolved ⊆
          (followIn follow (.workflow w)).unresolved := by
    rw [followIn_workflow] at h ⊢
    rw [Outcome.succeeds_bind_iff_left fun _ => Outcome.succeeds_pure _] at h
    obtain ⟨steps, hsteps⟩ := h
    have hone := Outcome.succeeds_mapM_iff.mp ⟨steps, hsteps⟩ s hs
    rw [followStep, Outcome.succeeds_bind_iff_left fun _ => Outcome.succeeds_pure _] at hone
    refine ⟨hone, ?_⟩
    rw [Outcome.unresolved_bind_pure, Outcome.unresolved_mapM hsteps]
    intro r hr
    refine List.mem_flatMap.mpr ⟨s, hs, ?_⟩
    rwa [followStep, Outcome.unresolved_bind_pure]
  induction hruns with
  | path hs hrun =>
    obtain ⟨-, hsub⟩ := hstep h hs
    rw [hrun, followRun] at hsub
    exact List.Subset.trans (Outcome.unresolved_subset_bind _ _) hsub
  | inline hs hrun _ ih =>
    obtain ⟨hone, hsub⟩ := hstep h hs
    rw [hrun, followRun, Outcome.unresolved_bind_pure] at hsub
    rw [hrun, followRun, Outcome.succeeds_bind_iff_left fun _ => Outcome.succeeds_pure _] at hone
    exact List.Subset.trans (ih hone) hsub

/-- What is reported for a file that a document refers to is among what following the references
of the document reports. -/
theorem Document.unresolved_external_subset {external : String → Outcome Process} {d : Document}
    (h : (d.follow external).Succeeds) {file : String} (hfile : d.RunsFile file) :
    (external file).unresolved ⊆ (d.follow external).unresolved := by
  obtain ⟨p, hp, hruns, hlocal⟩ := hfile
  -- The reference is one of the process that it is in.
  have hmember (hmember : (Reference.followMember external d.bundle p).Succeeds) :
      (external file).unresolved ⊆ (Reference.followMember external d.bundle p).unresolved := by
    have hsub := Run.unresolved_follow_subset hmember hruns
    rwa [Reference.follow_file hlocal, Outcome.unresolved_bind_pure] at hsub
  cases d with
  | process q =>
    obtain rfl := List.mem_singleton.mp hp
    rw [follow, Outcome.succeeds_bind_iff_left fun _ => Outcome.succeeds_pure _] at h
    rw [follow, Outcome.unresolved_bind_pure]
    exact hmember h
  | graph g =>
    rw [follow, Outcome.succeeds_bind_iff_left fun _ => Outcome.succeeds_pure _] at h
    obtain ⟨members, hmembers⟩ := h
    rw [follow, Outcome.unresolved_bind_pure, Outcome.unresolved_mapM hmembers]
    have hone := hmember (Outcome.succeeds_mapM_iff.mp ⟨members, hmembers⟩ p hp)
    exact List.Subset.trans hone fun r hr => List.mem_flatMap.mpr ⟨p, hp, hr⟩

/-- What is left in a document compares with what following its references reports, if that
holds of the files that the document refers to. -/
theorem Document.piecewise_follow
    {R : List UnresolvedReference → List UnresolvedReference → Prop} (hR : Piecewise R)
    {external : String → Outcome Process} {d d' : Document}
    (hexternal : ∀ file, d.RunsFile file → Tallies R (external file))
    (h : (d.follow external).result = .ok d') : R d'.dangling (d.follow external).unresolved := by
  cases d with
  | process p =>
    obtain ⟨p', hp', h⟩ := Outcome.result_bind_eq_ok_iff.mp h
    obtain rfl := Outcome.result_pure_eq_ok_iff.mp h
    have htallies : Tallies R (Reference.followMember external [] p) :=
      Reference.tallies_followMember hR (by simp) fun file hfile =>
        hexternal file ⟨p, List.mem_singleton.mpr rfl, hfile⟩
    rw [follow, Outcome.unresolved_bind_pure, dangling_process]
    exact htallies p' hp'
  | graph g =>
    obtain ⟨members, hmembers, h⟩ := Outcome.result_bind_eq_ok_iff.mp h
    obtain rfl := Outcome.result_pure_eq_ok_iff.mp h
    rw [follow, Outcome.unresolved_bind_pure, Outcome.unresolved_mapM hmembers]
    have hmem := (List.forall₂_and_left g.members members).mpr
      ⟨fun _ hp => hp, Outcome.result_mapM_eq_ok_iff.mp hmembers⟩
    refine hR.flatMap (hmem.imp ?_)
    rintro p p' ⟨hp, hp'⟩
    exact Reference.tallies_followMember hR (fun q hq file hfile => hexternal file ⟨q, hq, hfile⟩)
      (fun file hfile => hexternal file ⟨p, hp, hfile⟩) p' hp'

/-! ## Loading -/

namespace Loader

variable {fs : Files} {settings : Settings} {room : Nat} {stack : List Location} {path : String}
  {file : String} {d d' : Document}
  {R : List UnresolvedReference → List UnresolvedReference → Prop}

/-- What is left in the process that a reference to a file means compares with what is reported
for the file. -/
theorem tallies_external {load : String → Outcome Document} {directory target : String}
    (h : ∀ d p, (load (Path.join directory (Reference.split target).1)).result = .ok d →
      Reference.select d (Reference.split target).2
        (Path.join directory (Reference.split target).1) = .ok p →
      R (Run.danglingIn p) (load (Path.join directory (Reference.split target).1)).unresolved) :
    Tallies R (external load directory target) := by
  intro p hp
  obtain ⟨d, q, hd, hq, heq⟩ := external_eq_of_succeeds ⟨p, hp⟩
  rw [heq] at hp ⊢
  obtain rfl := Except.ok.inj hp
  exact h d q hd hq

/-- What is left in a file that is loaded for another one compares with what is reported for it,
if the comparison can be narrowed down to the process that a reference means. -/
theorem Loads.piecewise_load (hR : Piecewise R) (hresolve : settings.resolve = true)
    (hload : (load fs settings path).Succeeds)
    (hselect : ∀ room stack file d p fragment shown,
      Loads fs settings.maxDepth path room stack file → stack ≠ [] →
        (load fs settings file).result = .ok d → Reference.select d fragment shown = .ok p →
          R d.dangling (load fs settings file).unresolved →
            R (Run.danglingIn p) (load fs settings file).unresolved)
    (h : Loads fs settings.maxDepth path room stack file)
    (hd : (load fs settings file).result = .ok d) :
    R d.dangling (load fs settings file).unresolved := by
  -- The induction is on the room: a file is loaded for a reference one file deeper.
  induction room generalizing stack file d with
  | zero =>
    obtain ⟨_, _, _, hzero, _⟩ := h.exists_load_eq_follow hresolve hload
    cases hzero
  | succ room ih =>
    obtain ⟨_, place, e, hroom, hplace, hnormal, heq⟩ := h.exists_load_eq_follow hresolve hload
    obtain rfl := Nat.succ.inj hroom
    rw [heq] at hd ⊢
    refine Document.piecewise_follow hR (fun target hfile => tallies_external ?_) hd
    intro d' p hd' hp
    have hnext := h.reference hplace hnormal hfile
    exact hselect _ _ _ d' p _ _ hnext (List.cons_ne_nil _ _) hd' hp (ih hnext hd')

/-- Every path that is left in a loaded file is one to a member, and is reported. -/
theorem reported_load (hresolve : settings.resolve = true)
    (hd : (load fs settings path).result = .ok d) :
    Reported d.dangling (load fs settings path).unresolved :=
  Loads.root.piecewise_load .reported hresolve ⟨d, hd⟩
    (fun _ _ _ _ _ _ _ _ _ _ hp h => h.of_mem (Reference.mem_processes_of_select hp)) hd

/-- Every path that is left in a document that was loaded is one to a member, wherever it is.
These paths are reported, in the order of the document, and if the tree that was loaded refers
to no files then nothing else is. -/
theorem ofTree_dangling (fs : Files) (settings : Settings) (hresolve : settings.resolve = true)
    (origin : String) {raw : Value} {d' : Document}
    (h : (ofTree fs settings raw origin).result = .ok d') :
    (∀ p ∈ d'.processes, ∀ w : Workflow, ProcessOf.Within (.workflow w) p → ∀ s ∈ w.steps,
      ∀ target, s.run = .path target → Reference.isLocal target = true) ∧
    d'.dangling.Sublist (ofTree fs settings raw origin).unresolved ∧
    ∃ d, normalTree raw = .ok d ∧
      ((∀ file, ¬ d.RunsFile file) → d'.dangling = (ofTree fs settings raw origin).unresolved) := by
  rw [ofTree, hresolve, loadTree_true] at h ⊢
  obtain ⟨d, hnormal, hfollow⟩ := Outcome.result_bind_eq_ok_iff.mp h
  rw [Outcome.result_ofExcept] at hnormal
  rw [hnormal, Outcome.ofExcept_ok_bind]
  have hreported : Reported d'.dangling (d.follow
      (external (load fs settings) ((Path.parent? origin).getD ""))).unresolved := by
    refine Document.piecewise_follow .reported (fun target _ => tallies_external ?_) hfollow
    exact fun e p he hp =>
      (reported_load hresolve he).of_mem (Reference.mem_processes_of_select hp)
  refine ⟨fun p hp w hwithin s hs target hrun => ?_, hreported.1, d, rfl, fun hno => ?_⟩
  · have hr : ⟨w.id, s.id, target⟩ ∈ Run.danglingIn p :=
      Run.mem_danglingIn_iff.mpr ⟨w, hwithin, s, hs, hrun, rfl, rfl⟩
    exact hreported.2 _ ((Document.danglingIn_sublist hp).subset hr)
  · exact Document.piecewise_follow .eq (fun file hfile => absurd hfile (hno file)) hfollow

/-- A workflow in one file that runs the workflow in another one, where a path is left. -/
def nestedFiles : Files where
  working := ["work"]
  texts := [(["work", "flow"], "class: Workflow\nid: main\nsteps: [{id: only, run: inner}]\n"),
    (["work", "inner"], "class: Workflow\nid: inner\nsteps:\n- id: only\n  run: '#missing'\n")]
  directories := []

/-- The path that is left there, as it is reported. -/
def leftPath : UnresolvedReference := ⟨some "inner", some "only", "#missing"⟩

/-- The normal form of the inner workflow. -/
theorem normalAt_nestedFiles_inner {place : Location}
    (h : nestedFiles.locate "inner" = .ok place) :
    normalAt nestedFiles place =
      .ok (.process (.workflow (oneStep "inner" (.path "#missing")))) := by
  have hplace : nestedFiles.locate "inner" = .ok ["work", "inner"] := by decide +kernel
  obtain rfl := Except.ok.inj (hplace.symm.trans h)
  exact toOption_eq_some_iff.mp (by decide +kernel)

/-- The inner workflow is loaded as it is, and the path that is left is reported. -/
theorem loadFile_nestedFiles_inner (h : ["work", "inner"] ∉ stack) :
    loadFile nestedFiles .default (room + 1) stack "inner" =
      ⟨.ok (.process (.workflow (oneStep "inner" (.path "#missing")))), [leftPath]⟩ := by
  have hplace : nestedFiles.locate "inner" = .ok ["work", "inner"] := by decide +kernel
  exact (loadFile_eq_follow rfl hplace h (normalAt_nestedFiles_inner hplace)).trans rfl

/-- The inner workflow is put into the outer one, with the path that is left. -/
theorem follow_nestedFiles {load : String → Outcome Document} {directory : String}
    (h : load (Path.join directory "inner") =
      ⟨.ok (.process (.workflow (oneStep "inner" (.path "#missing")))), [leftPath]⟩) :
    (Document.process (.workflow (oneStep "main" (.path "inner")))).follow
        (external load directory) =
      ⟨.ok (.process (.workflow (oneStep "main" (.inline (.workflow
        (oneStep "inner" (.path "#missing"))))))), [leftPath]⟩ := by
  have hexternal (file : String)
      (hfile : (Document.process (.workflow (oneStep "main" (.path "inner")))).RunsFile file) :
      external load directory file =
        ⟨.ok (.workflow (oneStep "inner" (.path "#missing"))), [leftPath]⟩ := by
    obtain ⟨rfl, -⟩ := runsFile_oneStep_iff.mp hfile
    have hsplit : Reference.split "inner" = ("inner", none) := by decide +kernel
    rw [external_eq, hsplit, h]
    rfl
  exact (Document.follow_congr hexternal).trans rfl

/-- The path that is left in the inner workflow is reported when a tree is loaded that runs it. -/
theorem ofTree_dangling_nestedFiles :
    ∃ d', (ofTree nestedFiles .default
        (ProcessOf.toCwl (.workflow (oneStep "main" (.path "inner")))) "flow").result = .ok d' ∧
      d'.dangling = [leftPath] ∧
      d'.dangling.Sublist (ofTree nestedFiles .default
        (ProcessOf.toCwl (.workflow (oneStep "main" (.path "inner")))) "flow").unresolved := by
  have hnormal : normalTree (ProcessOf.toCwl (.workflow (oneStep "main" (.path "inner")))) =
      .ok (.process (.workflow (oneStep "main" (.path "inner")))) := rfl
  have hpath : Path.join ((Path.parent? "flow").getD "") "inner" = "inner" := by decide +kernel
  have hload : (ofTree nestedFiles .default
      (ProcessOf.toCwl (.workflow (oneStep "main" (.path "inner")))) "flow").result =
        .ok (.process (.workflow (oneStep "main" (.inline (.workflow
          (oneStep "inner" (.path "#missing"))))))) := by
    show (loadTree true _ _).result = _
    rw [loadTree_true, hnormal, Outcome.ofExcept_ok_bind, follow_nestedFiles]
    rw [hpath]
    exact loadFile_nestedFiles_inner List.not_mem_nil
  exact ⟨_, hload, rfl, (ofTree_dangling nestedFiles .default rfl "flow" hload).2.1⟩

/-! ## Reports about other files -/

/-- What is reported for a file that is loaded for another one is reported for that one. -/
theorem Loads.unresolved_subset (hresolve : settings.resolve = true)
    (hload : (load fs settings path).Succeeds)
    (h : Loads fs settings.maxDepth path room stack file) :
    (load fs settings file).unresolved ⊆ (load fs settings path).unresolved := by
  induction h with
  | root => exact List.Subset.refl _
  | @reference room stack file place d target h hplace hnormal hfile ih =>
    refine List.Subset.trans ?_ ih
    obtain ⟨_, place', d', -, hplace', hnormal', heq⟩ := h.exists_load_eq_follow hresolve hload
    obtain rfl := Except.ok.inj (hplace.symm.trans hplace')
    obtain rfl := Except.ok.inj (hnormal.symm.trans hnormal')
    -- The file was loaded, and so was every file that its document refers to.
    have hsucceeds : (d.follow (external (load fs settings) (directoryOf fs place))).Succeeds := by
      rw [← heq, ← h.loadFile_eq_load hresolve hload]
      exact h.succeeds hresolve hload
    have hexternal := Document.unresolved_external_subset hsucceeds hfile
    obtain ⟨_, _, -, -, hreports⟩ :=
      external_eq_of_succeeds (Document.succeeds_follow_iff.mp hsucceeds target hfile)
    simpa only [pathOf, ← heq, hreports] using hexternal

/-- The references that are reported for a file are those that are left in one of the files that
are loaded for it, itself included. If all the others hold a single process, then exactly those
are reported that are left in the document that is given back. -/
theorem unresolved_load (fs : Files) (settings : Settings) (hresolve : settings.resolve = true)
    {path : String} {d : Document} (hd : (load fs settings path).result = .ok d) :
    (∀ r, r ∈ (load fs settings path).unresolved ↔ ∃ room stack file e,
      Loads fs settings.maxDepth path room stack file ∧
        (load fs settings file).result = .ok e ∧ r ∈ e.dangling) ∧
    ((∀ room stack file e, Loads fs settings.maxDepth path room stack file → stack ≠ [] →
        (load fs settings file).result = .ok e → ∃ p, e = .process p) →
      (load fs settings path).unresolved = d.dangling) := by
  refine ⟨fun r => ⟨fun hr => ?_, ?_⟩, fun hsingle => ?_⟩
  · have hor := Loads.root.piecewise_load (.leftOr fun r => ∃ room stack file e,
      Loads fs settings.maxDepth path room stack file ∧
        (load fs settings file).result = .ok e ∧ r ∈ e.dangling) hresolve ⟨d, hd⟩ ?_ hd r hr
    · exact hor.elim (fun hr => ⟨_, _, path, d, .root, hd, hr⟩) id
    · -- What is left in another file is no matter of the process that is picked there.
      intro room stack file e p _ _ h _ he _ hor r hr
      exact .inr ((hor r hr).elim (fun hr => ⟨room, stack, file, e, h, he, hr⟩) id)
  · rintro ⟨room, stack, file, e, h, he, hr⟩
    exact h.unresolved_subset hresolve ⟨d, hd⟩ ((reported_load hresolve he).1.subset hr)
  · refine (Loads.root.piecewise_load .eq hresolve ⟨d, hd⟩ ?_ hd).symm
    intro room stack file e p fragment shown h hstack he hp heq
    obtain ⟨q, rfl⟩ := hsingle room stack file e h hstack he
    obtain rfl := Except.ok.inj hp
    rw [← heq, Document.dangling_process]

/-- The one path that is left is reported when the outer workflow of two files is loaded. -/
theorem unresolved_load_nestedFiles :
    ∃ d, (load nestedFiles .default "flow").result = .ok d ∧ d.dangling = [leftPath] ∧
      (load nestedFiles .default "flow").unresolved = d.dangling := by
  have hplace : nestedFiles.locate "flow" = .ok ["work", "flow"] := by decide +kernel
  have hnormal : normalAt nestedFiles ["work", "flow"] =
      .ok (.process (.workflow (oneStep "main" (.path "inner")))) :=
    toOption_eq_some_iff.mp (by decide +kernel)
  have hpath : pathOf nestedFiles ["work", "flow"] "inner" = "inner" := by decide +kernel
  have hinner : (load nestedFiles .default "inner").result =
      .ok (.process (.workflow (oneStep "inner" (.path "#missing")))) :=
    congrArg Outcome.result (loadFile_nestedFiles_inner List.not_mem_nil)
  have hload : (load nestedFiles .default "flow").result =
      .ok (.process (.workflow (oneStep "main" (.inline (.workflow
        (oneStep "inner" (.path "#missing"))))))) := by
    refine congrArg Outcome.result ((loadFile_eq_follow rfl hplace List.not_mem_nil hnormal).trans
      (follow_nestedFiles ?_))
    exact hpath ▸ loadFile_nestedFiles_inner (by decide)
  -- Besides the outer workflow only the inner one is loaded, which refers to no file.
  have hloads (room : Nat) (stack : List Location) (file : String)
      (h : Loads nestedFiles 32 "flow" room stack file) :
      (file = "flow" ∧ stack = []) ∨ file = "inner" := by
    induction h with
    | root => exact .inl ⟨rfl, rfl⟩
    | @reference room stack file place d target _ hplace' hnormal' hfile ih =>
      right
      rcases ih with ⟨rfl, -⟩ | rfl
      · obtain rfl := Except.ok.inj (hplace.symm.trans hplace')
        obtain rfl := Except.ok.inj (hnormal.symm.trans hnormal')
        obtain ⟨rfl, -⟩ := runsFile_oneStep_iff.mp hfile
        exact hpath
      · obtain rfl := Except.ok.inj ((normalAt_nestedFiles_inner hplace').symm.trans hnormal')
        obtain ⟨-, hlocal⟩ := runsFile_oneStep_iff.mp hfile
        exact absurd hlocal (by decide)
  refine ⟨_, hload, rfl, (unresolved_load nestedFiles .default rfl hload).2 ?_⟩
  intro room stack file e h hstack he
  rcases hloads room stack file h with ⟨-, hnil⟩ | rfl
  · exact absurd hnil hstack
  · exact ⟨_, Except.ok.inj (he.symm.trans hinner)⟩

/-- A workflow that runs a tool of a bundle, where another member has a path that is left. -/
def strayFiles : Files where
  working := ["work"]
  texts := [(["work", "flow"], "class: Workflow\nsteps:\n- run: lib#tool\n"),
    (["work", "lib"], "$graph:\n- class: CommandLineTool\n  id: tool\n- class: Workflow\n" ++
      "  id: other\n  steps:\n  - id: only\n    run: '#missing'\n")]
  directories := []

/-- The path that is left in the other member of the bundle is reported, although nothing is left
in the document that is given back. -/
theorem unresolved_load_strayFiles :
    ∃ d, (load strayFiles .default "flow").result = .ok d ∧
      ∃ r ∈ (load strayFiles .default "flow").unresolved, r ∉ d.dangling := by
  have hdangling : (load strayFiles .default "flow").result.toOption.map Document.dangling =
      some [] := by decide +kernel
  have hunresolved : (load strayFiles .default "flow").unresolved =
      [⟨some "other", some "only", "#missing"⟩] := by decide +kernel
  obtain ⟨d, hd, hnone⟩ := Option.map_eq_some_iff.mp hdangling
  refine ⟨d, toOption_eq_some_iff.mp hd, ⟨some "other", some "only", "#missing"⟩, ?_, ?_⟩
  · rw [hunresolved]
    exact List.mem_singleton.mpr rfl
  · rw [hnone]
    exact List.not_mem_nil

end Loader

end CanonicalCwl
