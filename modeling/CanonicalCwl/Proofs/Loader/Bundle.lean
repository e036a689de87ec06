import CanonicalCwl.Process.Cwl
import CanonicalCwl.Proofs.Loader.Tree

/-!
# References Inside a Bundle

Following the references of a document puts members of its bundle in place of the paths that
mean them, and goes on inside of these. `Document.Visits` relates every workflow that is visited
in this way to what becomes of it, and knows the names of the members that it was put into.

- `Document.Visits.exists_followedIn`: what is visited was followed with these names as the ones
  that enclose it, no name is there twice, and there was room for as many as there are members.
- `Loader.ofTree_bundle`: which references to members stay and which are replaced, and by what.
-/

namespace CanonicalCwl

namespace Document

/-- The workflows that are visited while the references of `d` are followed to give `d'`, beside
what becomes of them, and the names of the members that they were put into, innermost first: the
workflows of the document, those that visited steps run in place, and the members that were put
in for visited steps. -/
inductive Visits (d d' : Document) : List String → Workflow → Workflow → Prop
  | top {k : Nat} {w w' : Workflow} :
      d.processes[k]? = some (.workflow w) → d'.processes[k]? = some (.workflow w') →
        Visits d d' (w.id.map memberName).toList w w'
  | inline {chain : List String} {w w' v v' : Workflow} {i : Nat} {s t : Step} :
      Visits d d' chain w w' → w.steps[i]? = some s → w'.steps[i]? = some t →
        s.run = .inline (.workflow v) → t.run = .inline (.workflow v') → Visits d d' chain v v'
  | member {chain : List String} {w w' v v' : Workflow} {i : Nat} {s t : Step} {target : String} :
      Visits d d' chain w w' → w.steps[i]? = some s → w'.steps[i]? = some t →
        s.run = .path target → Reference.isLocal target = true →
        findMember d.bundle target = some (.workflow v) → t.run = .inline (.workflow v') →
        Visits d d' (memberName target :: chain) v v'

/-- What it means that a workflow was followed inside members of some names. -/
structure FollowedIn (external : String → Outcome Process) (d : Document) (room : Nat)
    (chain : List String) (w w' : Workflow) : Prop where
  /-- The references of the workflow were followed, knowing the names. -/
  followed : (Run.followIn (Reference.follow external d.bundle room chain) (.workflow w)).result =
    .ok (.workflow w')
  /-- No name occurs twice. -/
  nodup : chain.Nodup
  /-- The names are those of processes of the document. -/
  named : ∀ name ∈ chain, ∃ p ∈ d.processes, p.id?.map memberName = some name
  /-- There is room for all of the members that do not enclose the workflow. -/
  room : d.bundle.length ≤ room + chain.length

variable {external : String → Outcome Process} {d d' : Document} {room : Nat}
  {chain : List String} {w w' : Workflow} {i : Nat} {s t : Step}

/-- Steps of a workflow that was followed differ in what they run, and there the rule for single
references holds. -/
theorem FollowedIn.step (h : FollowedIn external d room chain w w') (hs : w.steps[i]? = some s)
    (ht : w'.steps[i]? = some t) :
    t = { s with run := t.run } ∧
      Run.Followed (Reference.follow external d.bundle room chain) s.run t.run := by
  obtain ⟨steps, heq, hsteps⟩ := Run.result_followIn_workflow.mp h.followed
  obtain rfl := ProcessOf.workflow.inj heq
  obtain ⟨hi, rfl⟩ := List.getElem?_eq_some_iff.mp hs
  obtain ⟨hi', rfl⟩ := List.getElem?_eq_some_iff.mp ht
  exact hsteps.get hi hi'

/-- There is room for all of the members that do not enclose the workflow. -/
theorem FollowedIn.fits (h : FollowedIn external d room chain w w') {p : Process}
    (hp : p ∈ d.bundle) : Reference.Fits d.bundle room chain := by
  cases d with
  | process q => cases hp
  | graph g => exact ⟨h.nodup, h.named, h.room⟩

/-- A workflow that was followed differs in what its steps run. -/
theorem FollowedIn.rest (h : FollowedIn external d room chain w w') :
    w' = { w with steps := w'.steps } ∧ w'.steps.length = w.steps.length := by
  obtain ⟨steps, heq, hsteps⟩ := Run.result_followIn_workflow.mp h.followed
  obtain rfl := ProcessOf.workflow.inj heq
  exact ⟨rfl, hsteps.length_eq.symm⟩

/-- Every step of a workflow that was followed has a counterpart. -/
theorem FollowedIn.exists_step (h : FollowedIn external d room chain w w')
    (hs : w.steps[i]? = some s) : ∃ t, w'.steps[i]? = some t := by
  obtain ⟨hi, -⟩ := List.getElem?_eq_some_iff.mp hs
  have hi' : i < w'.steps.length := h.rest.2 ▸ hi
  exact ⟨w'.steps[i], List.getElem?_eq_getElem hi'⟩

/-- A tool in place stays. -/
theorem FollowedIn.tool (h : FollowedIn external d room chain w w') (hs : w.steps[i]? = some s)
    (ht : w'.steps[i]? = some t) {p : Process} (hrun : s.run = .inline p)
    (htool : p.workflow? = none) : t.run = .inline p := by
  obtain ⟨-, hfollowed⟩ := h.step hs ht
  rw [hrun] at hfollowed
  generalize t.run = r at hfollowed
  cases hfollowed with
  | inline hresult =>
    cases p with
    | workflow v => cases htool
    | commandLineTool u | expressionTool u =>
      rw [Run.followIn] at hresult
      rw [Outcome.result_pure_eq_ok_iff.mp hresult]

/-- A reference to a file is replaced by the process that the file was found to hold. -/
theorem FollowedIn.file (h : FollowedIn external d room chain w w') (hs : w.steps[i]? = some s)
    (ht : w'.steps[i]? = some t) {target : String} (hrun : s.run = .path target)
    (hfile : Reference.isLocal target = false) :
    ∃ p, (external target).result = .ok p ∧ t.run = .inline p := by
  obtain ⟨-, hfollowed⟩ := h.step hs ht
  rw [hrun] at hfollowed
  exact hfollowed.eq_of_bind (Reference.follow_file hfile)

/-- A workflow in place is followed inside the same members. -/
theorem FollowedIn.inline (h : FollowedIn external d room chain w w') (hs : w.steps[i]? = some s)
    (ht : w'.steps[i]? = some t) {v : Workflow} (hrun : s.run = .inline (.workflow v)) :
    ∃ v', t.run = .inline (.workflow v') ∧ FollowedIn external d room chain v v' := by
  obtain ⟨-, hfollowed⟩ := h.step hs ht
  rw [hrun] at hfollowed
  generalize hr : t.run = r at hfollowed
  cases hfollowed with
  | inline hresult =>
    obtain ⟨steps, rfl, -⟩ := Run.result_followIn_workflow.mp hresult
    exact ⟨_, rfl, hresult, h.nodup, h.named, h.room⟩

/-- What becomes of a step that runs a path to a member: the path is replaced by a member of the
name that encloses the step not yet, and stays otherwise. -/
inductive MemberRun (external : String → Outcome Process) (d : Document) (room : Nat)
    (chain : List String) (target : String) : Run → Prop
  | absent : findMember d.bundle target = none →
      MemberRun external d room chain target (.path target)
  | tool {p : Process} : findMember d.bundle target = some p → p.workflow? = none →
      MemberRun external d room chain target (.inline p)
  | enclosing {v : Workflow} : findMember d.bundle target = some (.workflow v) →
      memberName target ∈ chain → MemberRun external d room chain target (.path target)
  | workflow {v v' : Workflow} {room' : Nat} : findMember d.bundle target = some (.workflow v) →
      memberName target ∉ chain →
      FollowedIn external d room' (memberName target :: chain) v v' →
      MemberRun external d room chain target (.inline (.workflow v'))

/-- What becomes of a step that runs a path to a member. -/
theorem FollowedIn.member (h : FollowedIn external d room chain w w')
    (hs : w.steps[i]? = some s) (ht : w'.steps[i]? = some t) {target : String}
    (hrun : s.run = .path target) (hlocal : Reference.isLocal target = true) :
    MemberRun external d room chain target t.run := by
  obtain ⟨-, hfollowed⟩ := h.step hs ht
  rw [hrun] at hfollowed
  generalize t.run = r at hfollowed
  cases Reference.meaning d.bundle chain target with
  | file hfile =>
    rw [hlocal] at hfile
    cases hfile
  | absent _ hfind =>
    rw [hfollowed.eq_of_pure (Reference.follow_absent hlocal hfind)]
    exact .absent hfind
  | tool _ hfind htool =>
    rw [hfollowed.eq_of_pure (Reference.follow_tool hlocal hfind htool)]
    exact .tool hfind htool
  | enclosing _ hfind hseen =>
    rw [hfollowed.eq_of_pure (Reference.follow_enclosing hlocal hfind hseen)]
    exact .enclosing hfind hseen
  | @workflow v _ hfind hseen =>
    -- Not all of the members enclose the step, so that there is room for this one.
    have hv : .workflow v ∈ d.bundle := mem_of_findMember hfind
    obtain ⟨room', rfl, hfits⟩ := (h.fits hv).exists_enter hfind hseen
    obtain ⟨p, hresult, rfl⟩ :=
      hfollowed.eq_of_bind (Reference.follow_workflow hlocal hfind hseen)
    obtain ⟨steps, rfl, -⟩ := Run.result_followIn_workflow.mp hresult
    apply MemberRun.workflow hfind hseen
    constructor
    case followed => exact hresult
    case nodup => exact hfits.nodup
    case named =>
      intro name hname
      obtain ⟨p, hp, hid⟩ := hfits.named name hname
      exact ⟨p, mem_processes_of_mem_bundle hp, hid⟩
    case room => exact hfits.room

/-- What a visited workflow runs, some process of the document runs. -/
theorem Visits.runs (h : d.Visits d' chain w w') :
    ∃ p ∈ d.processes, ∀ target, ProcessOf.Runs (.workflow w) target → p.Runs target := by
  induction h with
  | top hw _ => exact ⟨_, List.mem_of_getElem? hw, fun _ hruns => hruns⟩
  | inline _ hs _ hrun _ ih =>
    obtain ⟨p, hp, hruns⟩ := ih
    exact ⟨p, hp, fun target h => hruns target (.inline (List.mem_of_getElem? hs) hrun h)⟩
  | member _ _ _ _ _ hfind _ _ =>
    exact ⟨_, mem_processes_of_mem_bundle (mem_of_findMember hfind), fun _ hruns => hruns⟩

/-- The references to files of visited steps are those of the document. -/
theorem Visits.runsFile (h : d.Visits d' chain w w') (hs : s ∈ w.steps)
    {target : String} (hrun : s.run = .path target) (hfile : Reference.isLocal target = false) :
    d.RunsFile target := by
  obtain ⟨p, hp, hruns⟩ := h.runs
  exact ⟨p, hp, hruns target (.path hs hrun), hfile⟩

/-- Every workflow of a document is visited. -/
theorem exists_visits_top (hload : (d.follow external).result = .ok d') {k : Nat}
    (hw : d.processes[k]? = some (.workflow w)) :
    ∃ w', d'.processes[k]? = some (.workflow w') ∧
      d.Visits d' (w.id.map memberName).toList w w' := by
  have hmembers := forall₂_of_result_follow hload
  obtain ⟨hk, hget⟩ := List.getElem?_eq_some_iff.mp hw
  have hk' : k < d'.processes.length := hmembers.length_eq ▸ hk
  have hresult := hmembers.get hk hk'
  rw [List.get_eq_getElem, hget] at hresult
  obtain ⟨steps, heq, -⟩ := Run.result_followIn_workflow.mp hresult
  have hw' : d'.processes[k]? = some (.workflow { w with steps }) := by
    rw [List.getElem?_eq_getElem hk']
    exact congrArg some heq
  exact ⟨_, hw', .top hw hw'⟩

/-- What is visited was followed, knowing the names of the members that it was put into. -/
theorem Visits.exists_followedIn (hload : (d.follow external).result = .ok d')
    (h : d.Visits d' chain w w') : ∃ room, FollowedIn external d room chain w w' := by
  -- The induction is on the visit: every step into a workflow keeps the invariant.
  induction h with
  | @top k w w' hw hw' =>
    have hmembers := forall₂_of_result_follow hload
    obtain ⟨hk, hget⟩ := List.getElem?_eq_some_iff.mp hw
    obtain ⟨hk', hget'⟩ := List.getElem?_eq_some_iff.mp hw'
    have hresult := hmembers.get hk hk'
    rw [List.get_eq_getElem, List.get_eq_getElem, hget, hget'] at hresult
    refine ⟨d.bundle.length, hresult, ?_, fun name hname => ?_, Nat.le_add_right ..⟩
    · cases w.id <;> simp
    · exact ⟨_, List.mem_of_getElem? hw, by simpa [ProcessOf.id?, ProcessOf.header] using hname⟩
  | inline _ hs ht hrun hrun' ih =>
    obtain ⟨room, h⟩ := ih
    obtain ⟨v', heq, hv⟩ := h.inline hs ht hrun
    rw [hrun', Run.inline.injEq, ProcessOf.workflow.injEq] at heq
    exact ⟨room, heq ▸ hv⟩
  | member _ hs ht hrun hlocal hfind hrun' ih =>
    obtain ⟨room, h⟩ := ih
    have hmember := h.member hs ht hrun hlocal
    rw [hrun'] at hmember
    cases hmember with
    | tool hfind' htool =>
      rw [hfind] at hfind'
      cases Option.some.inj hfind'
      cases htool
    | workflow hfind' _ hv =>
      rw [hfind, Option.some.injEq, ProcessOf.workflow.injEq] at hfind'
      exact ⟨_, hfind' ▸ hv⟩

/-- What a visited workflow runs is met: a step runs it, of this workflow or of one that is
visited from there. -/
theorem Visits.exists_step_of_runs (hload : (d.follow external).result = .ok d')
    (h : d.Visits d' chain w w') {target : String} (hruns : ProcessOf.Runs (.workflow w) target) :
    ∃ v v', d.Visits d' chain v v' ∧ ∃ s ∈ v.steps, s.run = .path target := by
  generalize hp : ProcessOf.workflow w = p at hruns
  induction hruns generalizing w w' with
  | @path _ s _ hs hrun =>
    obtain rfl := ProcessOf.workflow.inj hp
    exact ⟨w, w', h, s, hs, hrun⟩
  | @inline _ s q _ hs hrun hruns ih =>
    obtain rfl := ProcessOf.workflow.inj hp
    obtain ⟨i, hi⟩ := List.mem_iff_getElem?.mp hs
    obtain ⟨room, hfollowed⟩ := h.exists_followedIn hload
    obtain ⟨t, ht⟩ := hfollowed.exists_step hi
    cases q with
    | commandLineTool u | expressionTool u => cases hruns
    | workflow v =>
      obtain ⟨v', hrun', -⟩ := hfollowed.inline hi ht hrun
      exact ih (h.inline hi ht hrun hrun') rfl

/-- The references to files that are met while those of a document are followed are exactly the
references to files in the document. -/
theorem runsFile_iff_visits (hload : (d.follow external).result = .ok d') {target : String} :
    d.RunsFile target ↔ Reference.isLocal target = false ∧
      ∃ chain w w', d.Visits d' chain w w' ∧ ∃ s ∈ w.steps, s.run = .path target := by
  constructor
  · rintro ⟨p, hp, hruns, hfile⟩
    cases p with
    | commandLineTool t | expressionTool t => cases hruns
    | workflow w =>
      obtain ⟨k, hk⟩ := List.mem_iff_getElem?.mp hp
      obtain ⟨w', -, hvisits⟩ := exists_visits_top hload hk
      exact ⟨hfile, _, hvisits.exists_step_of_runs hload hruns⟩
  · rintro ⟨hfile, chain, w, w', hvisits, s, hs, hrun⟩
    exact hvisits.runsFile hs hrun hfile

end Document

/-! ## Bundles with distinct names -/

/-- Among members with distinct names, a name finds the one that has it. -/
theorem findMember_eq_some_iff {members : List Process}
    (hdistinct : (members.filterMap fun p => p.id?.map memberName).Nodup) {name : String}
    {p : Process} : findMember members name = some p ↔
      p ∈ members ∧ p.id?.map memberName = some (memberName name) := by
  refine ⟨fun h => ⟨mem_of_findMember h, name_of_findMember h⟩, ?_⟩
  rintro ⟨hp, hname⟩
  induction members with
  | nil => cases hp
  | cons q rest ih =>
    rw [List.filterMap_cons] at hdistinct
    rcases List.mem_cons.mp hp with rfl | hp
    · simp [findMember, hname]
    · -- A later member has another name than the first, which is passed over.
      have hrest : (rest.filterMap fun p => p.id?.map memberName).Nodup := by
        split at hdistinct
        · exact hdistinct
        · exact (List.nodup_cons.mp hdistinct).2
      have hne : q.id?.map memberName ≠ some (memberName name) := by
        intro hq
        rw [hq] at hdistinct
        exact (List.nodup_cons.mp hdistinct).1 (List.mem_filterMap.mpr ⟨p, hp, hname⟩)
      have hfind : findMember (q :: rest) name = findMember rest name := by
        simp [findMember, hne]
      rw [hfind]
      exact ih hrest hp

/-- What becomes of a step in a bundle of distinct names, inside members of some names: what its
references are replaced by, and which of them stay. -/
structure Document.StepRule (d d' : Document) (chain : List String) (s t : Step) : Prop where
  /-- Only what the step runs differs. -/
  rest : t = { s with run := t.run }
  /-- A tool in place stays. -/
  tool : ∀ p, s.run = .inline p → p.workflow? = none → t.run = .inline p
  /-- A workflow in place is visited inside the same members. -/
  workflow : ∀ v, s.run = .inline (.workflow v) →
    ∃ v', t.run = .inline (.workflow v') ∧ d.Visits d' chain v v'
  /-- A path to a member stays if no member has the name, or if a workflow has it that encloses
  the step. -/
  stays : ∀ target, s.run = .path target → Reference.isLocal target = true →
    (t.run = .path target ↔
      (∀ p ∈ d.bundle, p.id?.map memberName ≠ some (memberName target)) ∨
        ∃ v, .workflow v ∈ d.bundle ∧ v.id.map memberName = some (memberName target) ∧
          memberName target ∈ chain)
  /-- Otherwise the member takes its place, a workflow as it is visited inside the name. -/
  replaced : ∀ target, s.run = .path target → Reference.isLocal target = true →
    t.run ≠ .path target →
      ∃ p ∈ d.bundle, p.id?.map memberName = some (memberName target) ∧
        ((p.workflow? = none ∧ t.run = .inline p) ∨
          ∃ v v', p = .workflow v ∧ t.run = .inline (.workflow v') ∧
            d.Visits d' (memberName target :: chain) v v')

namespace Document

variable {external : String → Outcome Process} {d d' : Document} {chain : List String}
  {w w' : Workflow} {i : Nat} {s t : Step}

/-- The rule for the steps of a visited workflow. -/
theorem Visits.stepRule (hload : (d.follow external).result = .ok d')
    (hdistinct : (d.bundle.filterMap fun p => p.id?.map memberName).Nodup)
    (h : d.Visits d' chain w w') (hs : w.steps[i]? = some s) (ht : w'.steps[i]? = some t) :
    d.StepRule d' chain s t := by
  obtain ⟨room, hfollowed⟩ := h.exists_followedIn hload
  have hname {target : String} {p : Process} (hfind : findMember d.bundle target = some p) :
      p ∈ d.bundle ∧ p.id?.map memberName = some (memberName target) :=
    (findMember_eq_some_iff hdistinct).mp hfind
  constructor
  case rest => exact (hfollowed.step hs ht).1
  case tool => exact fun p hrun htool => hfollowed.tool hs ht hrun htool
  case workflow =>
    intro v hrun
    obtain ⟨v', hrun', -⟩ := hfollowed.inline hs ht hrun
    exact ⟨v', hrun', h.inline hs ht hrun hrun'⟩
  case stays =>
    intro target hrun hlocal
    have hmember := hfollowed.member hs ht hrun hlocal
    have hone {v : Workflow} (hv : .workflow v ∈ d.bundle)
        (hid : v.id.map memberName = some (memberName target)) :
        findMember d.bundle target = some (.workflow v) :=
      (findMember_eq_some_iff hdistinct).mpr ⟨hv, hid⟩
    generalize t.run = r at hmember
    cases hmember with
    | absent hfind => exact ⟨fun _ => .inl (findMember_eq_none_iff.mp hfind), fun _ => rfl⟩
    | @tool p hfind htool =>
      refine ⟨nofun, ?_⟩
      rintro (hnone | ⟨v, hv, hid, -⟩)
      · exact absurd (hname hfind).2 (hnone p (hname hfind).1)
      · rw [hone hv hid, Option.some.injEq] at hfind
        subst hfind
        cases htool
    | @enclosing v hfind hseen =>
      exact ⟨fun _ => .inr ⟨v, (hname hfind).1, (hname hfind).2, hseen⟩, fun _ => rfl⟩
    | workflow hfind hseen _ =>
      refine ⟨nofun, ?_⟩
      rintro (hnone | ⟨v, hv, hid, hseen'⟩)
      · exact absurd (hname hfind).2 (hnone _ (hname hfind).1)
      · exact absurd hseen' hseen
  case replaced =>
    intro target hrun hlocal hne
    have hmember := hfollowed.member hs ht hrun hlocal
    generalize hr : t.run = r at hmember hne
    cases hmember with
    | absent hfind => exact absurd rfl hne
    | tool hfind htool => exact ⟨_, (hname hfind).1, (hname hfind).2, .inl ⟨htool, rfl⟩⟩
    | enclosing hfind hseen => exact absurd rfl hne
    | workflow hfind hseen _ =>
      exact ⟨_, (hname hfind).1, (hname hfind).2,
        .inr ⟨_, _, rfl, rfl, h.member hs ht hrun hlocal hfind hr⟩⟩

end Document

namespace Loader

/-- The rule for references to members, in a bundle of distinct names that was loaded. Every
workflow of the bundle is visited, and so are the workflows that visited steps run in place. In
a visited workflow only what steps run differs, and no member encloses itself. A path to a member
stays exactly if no member has the name, or a workflow has it that encloses the step already.
Otherwise the member takes its place: a tool as it is, and a workflow as it is visited inside
the name. -/
theorem ofTree_bundle (fs : Files) (settings : Settings) (hresolve : settings.resolve = true)
    (origin : String) {raw : Value} {raws : List Value} {members : List Process} {d' : Document}
    (hraw : raw.get? "$graph" = some (.sequence raws))
    (hmembers : raws.mapM Normal.process = .ok members)
    (hdistinct : (members.filterMap fun p => p.id?.map memberName).Nodup)
    (hload : (ofTree fs settings raw origin).result = .ok d') :
    let d := Document.graph ⟨raw.text? "cwlVersion", members⟩
    (∀ (k : Nat) w, members[k]? = some (.workflow w) →
      ∃ w', d'.processes[k]? = some (.workflow w') ∧
        d.Visits d' (w.id.map memberName).toList w w') ∧
    ∀ chain w w', d.Visits d' chain w w' →
      chain.Nodup ∧ w' = { w with steps := w'.steps } ∧ w'.steps.length = w.steps.length ∧
      ∀ (i : Nat) s t, w.steps[i]? = some s → w'.steps[i]? = some t →
        d.StepRule d' chain s t := by
  intro d
  have hnormal : normalTree raw = .ok d := by
    rw [normalTree, hraw]
    simp only [hmembers]
    rfl
  have hfollow : (d.follow
      (external (load fs settings) ((Path.parent? origin).getD ""))).result = .ok d' := by
    rw [ofTree, hresolve, loadTree_true, hnormal] at hload
    exact hload
  refine ⟨fun k w hw => ?_, fun chain w w' hvisits => ?_⟩
  · exact Document.exists_visits_top hfollow hw
  · obtain ⟨room, hfollowed⟩ := hvisits.exists_followedIn hfollow
    obtain ⟨hrest, hlength⟩ := hfollowed.rest
    exact ⟨hfollowed.nodup, hrest, hlength,
      fun i s t hs ht => hvisits.stepRule hfollow hdistinct hs ht⟩

/-- A workflow of one step, which runs something. -/
def oneStep (id : String) (run : Run) : Workflow where
  id := some id
  className := some "Workflow"
  cwlVersion := none
  label := none
  doc := []
  inputs := []
  outputs := []
  requirements := []
  hints := []
  namespaces := none
  schemas := none
  steps := [⟨some "only", none, [], [], [], run, [], [], [], none⟩]

/-- The files that a workflow of one step refers to. -/
theorem runsFile_oneStep_iff {id target file : String} :
    (Document.process (.workflow (oneStep id (.path target)))).RunsFile file ↔
      file = target ∧ Reference.isLocal target = false := by
  constructor
  · rintro ⟨p, hp, hruns, hlocal⟩
    obtain rfl := List.mem_singleton.mp hp
    cases hruns with
    | path hs hrun =>
      obtain rfl := List.mem_singleton.mp hs
      obtain rfl := Run.path.inj hrun
      exact ⟨rfl, hlocal⟩
    | inline hs hrun _ =>
      obtain rfl := List.mem_singleton.mp hs
      cases hrun
  · rintro ⟨rfl, hlocal⟩
    exact ⟨_, List.mem_singleton.mpr rfl, .path (List.mem_singleton.mpr rfl) rfl, hlocal⟩

/-- Two workflows that run each other: each is put into the other, and there its own name stays. -/
theorem ofTree_bundle_pair :
    let raws := [(oneStep "a" (.path "#b")), (oneStep "b" (.path "#a"))].map fun w =>
      ProcessOf.toCwl (.workflow w)
    let d : Document := .graph ⟨none,
      [.workflow (oneStep "a" (.path "#b")), .workflow (oneStep "b" (.path "#a"))]⟩
    let d' : Document := .graph ⟨none,
      [.workflow (oneStep "a" (.inline (.workflow (oneStep "b" (.path "#a"))))),
        .workflow (oneStep "b" (.inline (.workflow (oneStep "a" (.path "#b")))))]⟩
    (ofTree ⟨[], [], []⟩ .default (.tagged "$graph" (.sequence raws)) "").result = .ok d' ∧
      ∀ chain w w', d.Visits d' chain w w' → chain.Nodup := by
  intro raws d d'
  have hload : (ofTree ⟨[], [], []⟩ .default (.tagged "$graph" (.sequence raws)) "").result =
      .ok d' := rfl
  have hrule := (ofTree_bundle ⟨[], [], []⟩ .default rfl "" rfl rfl (by decide) hload).2
  exact ⟨hload, fun chain w w' hvisits => (hrule chain w w' hvisits).1⟩

end Loader

end CanonicalCwl
