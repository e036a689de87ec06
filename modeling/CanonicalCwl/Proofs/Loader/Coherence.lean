import CanonicalCwl.Proofs.Loader.Bundle
import Mathlib.Logic.Relation

/-!
# Coherent Bundles

A member of a bundle is followed at its own place, and again wherever it is put in for a
reference. There it is enclosed by other workflows, and a path to one of these would stay. If no
workflow of the bundle leads back to itself, then no such path is met, so that what is put in is
what the member has become at its own place.

- `Reference.Above`: the workflows that enclose a step lead to the workflow that it is in.
- `Reference.follow_eq_of_acyclic`: what a reference is replaced by depends on neither the
  workflows that enclose the step nor the room for more of them.
- `Document.Visits.exists_followMember`: what a step was given for a path to a member is what the
  member becomes at its own place.
- `Loader.loadTree_coherent`: what is put in for a reference is the loaded member of the name.
-/

namespace CanonicalCwl

open Relation

namespace Reference

/-- A workflow of a bundle runs another one by its name, in a step of its own or of a workflow
that it runs in place. -/
def RunsMember (bundle : List Process) (v w : Workflow) : Prop :=
  .workflow v ∈ bundle ∧ .workflow w ∈ bundle ∧
    ∃ target, ProcessOf.Runs (.workflow v) target ∧ isLocal target = true ∧
      w.id.map memberName = some (memberName target)

/-- The workflows of some names lead to a workflow of the bundle. -/
def Above (bundle : List Process) (seen : List String) (v : Workflow) : Prop :=
  ∀ name ∈ seen, ∃ u : Workflow, .workflow u ∈ bundle ∧ u.id.map memberName = some name ∧
    ReflTransGen (RunsMember bundle) u v

variable {bundle : List Process} {seen seen' : List String} {target : String} {v w : Workflow}

/-- A workflow of a bundle that is found for a path is run by its name. -/
theorem runsMember_of_findMember (hv : .workflow v ∈ bundle)
    (hruns : ProcessOf.Runs (.workflow v) target) (hlocal : isLocal target = true)
    (hfind : findMember bundle target = some (.workflow w)) : RunsMember bundle v w :=
  ⟨hv, mem_of_findMember hfind, target, hruns, hlocal, name_of_findMember hfind⟩

/-- The name of a workflow leads to the workflow. -/
theorem above_self (hv : .workflow v ∈ bundle) :
    Above bundle (v.id.map memberName).toList v := by
  intro name hname
  exact ⟨v, hv, by simpa using hname, .refl⟩

/-- What leads to a workflow leads to those that it runs, and so does the name of each. -/
theorem Above.enter (h : Above bundle seen v) (hruns : RunsMember bundle v w)
    (hw : w.id.map memberName = some (memberName target)) :
    Above bundle (memberName target :: seen) w := by
  intro name hname
  rcases List.mem_cons.mp hname with rfl | hname
  · exact ⟨w, hruns.2.1, hw, .refl⟩
  · obtain ⟨u, hu, hid, hreaches⟩ := h name hname
    exact ⟨u, hu, hid, hreaches.tail hruns⟩

section Acyclic

variable (hdistinct : (bundle.filterMap fun p => p.id?.map memberName).Nodup)
  (hacyclic : ∀ v, ¬ TransGen (RunsMember bundle) v v)

include hdistinct hacyclic

/-- A workflow that is run is none of those that lead to the one that runs it. -/
theorem Above.notMem (h : Above bundle seen v) (hruns : RunsMember bundle v w)
    (hw : w.id.map memberName = some (memberName target)) : memberName target ∉ seen := by
  intro hmem
  obtain ⟨u, hu, hid, hreaches⟩ := h _ hmem
  -- Only one member has the name, and it would lead back to itself.
  have hfind : findMember bundle target = some (.workflow u) :=
    (findMember_eq_some_iff hdistinct).mpr ⟨hu, hid⟩
  have hfind' : findMember bundle target = some (.workflow w) :=
    (findMember_eq_some_iff hdistinct).mpr ⟨hruns.2.1, hw⟩
  rw [hfind, Option.some.injEq, ProcessOf.workflow.injEq] at hfind'
  subst hfind'
  exact hacyclic u (.tail' hreaches hruns)

/-- A path that a workflow runs is followed alike wherever the workflow is, if what encloses it
leads to it. -/
theorem follow_eq_of_acyclic {external : String → Outcome Process} {room room' : Nat}
    {seen seen' : List String} {target : String} {v : Workflow}
    (hv : .workflow v ∈ bundle) (hruns : ProcessOf.Runs (.workflow v) target)
    (hfits : Fits bundle room seen) (habove : Above bundle seen v)
    (hfits' : Fits bundle room' seen') (habove' : Above bundle seen' v) :
    follow external bundle room seen target = follow external bundle room' seen' target := by
  cases meaning bundle seen target with
  | file h => rw [follow_file h, follow_file h]
  | absent h hfind => rw [follow_absent h hfind, follow_absent h hfind]
  | tool h hfind htool => rw [follow_tool h hfind htool, follow_tool h hfind htool]
  | enclosing h hfind hseen =>
    have hmember := runsMember_of_findMember hv hruns h hfind
    exact absurd hseen (habove.notMem hdistinct hacyclic hmember (name_of_findMember hfind))
  | @workflow w h hfind hseen =>
    have hname : w.id.map memberName = some (memberName target) := name_of_findMember hfind
    have hmember := runsMember_of_findMember hv hruns h hfind
    have hseen' := habove'.notMem hdistinct hacyclic hmember hname
    -- In both places there is room for the workflow, and what it runs is followed alike there.
    obtain ⟨room₁, rfl, hfits₁⟩ := hfits.exists_enter hfind hseen
    obtain ⟨room₂, rfl, hfits₂⟩ := hfits'.exists_enter hfind hseen'
    rw [follow_workflow h hfind hseen, follow_workflow h hfind hseen']
    have hinside : Run.followIn (follow external bundle room₁ (memberName target :: seen))
          (.workflow w) =
        Run.followIn (follow external bundle room₂ (memberName target :: seen'))
          (.workflow w) := by
      apply Run.followIn_congr
      intro path hpath
      exact follow_eq_of_acyclic hmember.2.1 hpath hfits₁ (habove.enter hmember hname)
        hfits₂ (habove'.enter hmember hname)
    rw [hinside]
termination_by room

/-- A workflow of a bundle is followed, wherever it is put in, as it is at its own place. -/
theorem followIn_eq_followMember {external : String → Outcome Process} {room : Nat}
    (hv : .workflow v ∈ bundle) (hfits : Fits bundle room seen)
    (habove : Above bundle seen v) :
    Run.followIn (follow external bundle room seen) (.workflow v) =
      followMember external bundle (.workflow v) := by
  apply Run.followIn_congr
  intro target hruns
  exact follow_eq_of_acyclic hdistinct hacyclic hv hruns hfits habove (.of_mem hv)
    (above_self hv)

end Acyclic

end Reference

namespace Document

variable {external : String → Outcome Process} {g : Graph} {d' : Document} {chain : List String}
  {w w' : Workflow}

/-- A workflow that is visited is part of a workflow of the bundle, and the names that it was put
into lead there. -/
theorem Visits.exists_above (h : (graph g).Visits d' chain w w') :
    ∃ v : Workflow, .workflow v ∈ g.members ∧ Reference.Above g.members chain v ∧
      ∀ target, ProcessOf.Runs (.workflow w) target → ProcessOf.Runs (.workflow v) target := by
  induction h with
  | @top k w w' hw hw' =>
    have hmem : .workflow w ∈ g.members := List.mem_of_getElem? hw
    exact ⟨w, hmem, Reference.above_self hmem, fun _ hruns => hruns⟩
  | inline _ hs _ hrun _ ih =>
    -- What is run in place stays part of the same member.
    obtain ⟨v, hv, habove, hruns⟩ := ih
    refine ⟨v, hv, habove, ?_⟩
    intro target htarget
    exact hruns target (.inline (List.mem_of_getElem? hs) hrun htarget)
  | member _ hs _ hrun hlocal hfind _ ih =>
    obtain ⟨v, hv, habove, hruns⟩ := ih
    have hmember := Reference.runsMember_of_findMember hv
      (hruns _ (.path (List.mem_of_getElem? hs) hrun)) hlocal hfind
    exact ⟨_, hmember.2.1, habove.enter hmember (name_of_findMember hfind), fun _ hruns => hruns⟩

/-- What a step was given for a path to a member is what the member becomes at its own place. -/
theorem Visits.exists_followMember
    (hdistinct : (g.members.filterMap fun p => p.id?.map memberName).Nodup)
    (hacyclic : ∀ v, ¬ TransGen (Reference.RunsMember g.members) v v)
    (hload : ((graph g).follow external).result = .ok d')
    (hvisits : (graph g).Visits d' chain w w') {i : ℕ} {s t : Step} {target : String}
    {q : Process} (hs : w.steps[i]? = some s) (ht : w'.steps[i]? = some t)
    (hrun : s.run = .path target) (hlocal : Reference.isLocal target = true)
    (hinline : t.run = .inline q) :
    ∃ p, findMember g.members target = some p ∧
      (Reference.followMember external g.members p).result = .ok q := by
  obtain ⟨room, hfollowed⟩ := hvisits.exists_followedIn hload
  have hmember := hfollowed.member hs ht hrun hlocal
  rw [hinline] at hmember
  cases hmember with
  | @tool p hfind htool =>
    refine ⟨q, hfind, ?_⟩
    cases q with
    | workflow v => cases htool
    | commandLineTool u | expressionTool u =>
      rw [Reference.followMember, Run.followIn]
      rfl
  | @workflow v v' room' hfind hseen hv =>
    have hmem : .workflow v ∈ g.members := mem_of_findMember hfind
    obtain ⟨u, hu, habove, hruns⟩ := hvisits.exists_above
    have hleads := Reference.runsMember_of_findMember hu
      (hruns _ (.path (List.mem_of_getElem? hs) hrun)) hlocal hfind
    refine ⟨_, hfind, ?_⟩
    -- The names that enclose it lead to it, so that it was followed as it is at its own place.
    rw [← Reference.followIn_eq_followMember hdistinct hacyclic hmem (hv.fits hmem)
      (habove.enter hleads (name_of_findMember hfind))]
    exact hv.followed

/-- What a member becomes at its own place is found under the name of the member. -/
theorem find?_of_result_followMember
    (hdistinct : (g.members.filterMap fun p => p.id?.map memberName).Nodup)
    (hload : ((graph g).follow external).result = .ok d') {target : String} {p q : Process}
    (hfind : findMember g.members target = some p)
    (hq : (Reference.followMember external g.members p).result = .ok q) :
    ∃ g', d' = graph g' ∧ g'.find? target = some q := by
  obtain ⟨members, hmembers, heq⟩ := Outcome.result_bind_eq_ok_iff.mp hload
  obtain rfl := Outcome.result_pure_eq_ok_iff.mp heq
  refine ⟨_, rfl, ?_⟩
  -- The ids are kept, so that the names of the loaded members are distinct as well.
  have hids : members.map (·.id?) = g.members.map (·.id?) := ids_of_result_follow hload
  have hnames (ps : List Process) : (ps.filterMap fun p => p.id?.map memberName) =
      (ps.map (·.id?)).filterMap fun id => id.map memberName := by
    rw [List.filterMap_map]
    rfl
  rw [hnames, ← hids, ← hnames] at hdistinct
  apply (findMember_eq_some_iff hdistinct).mpr
  constructor
  · obtain ⟨i, hi, rfl⟩ := List.getElem_of_mem (mem_of_findMember hfind)
    have hall := Outcome.result_mapM_eq_ok_iff.mp hmembers
    have hi' : i < members.length := hall.length_eq ▸ hi
    have hq' := hall.get hi hi'
    rw [List.get_eq_getElem, List.get_eq_getElem, hq] at hq'
    rw [Except.ok.inj hq']
    exact List.getElem_mem hi'
  · rw [ProcessOf.id?, Run.header_of_result_followIn hq]
    exact name_of_findMember hfind

end Document

namespace Loader

/-- In a bundle of distinct names where no workflow leads back to itself, every process that a
step was given for a path to a member is the member of that name in the loaded bundle. The step
may be one of any workflow that is visited: of a member, of one that is run in place, or of one
that was put in for a path itself. -/
theorem loadTree_coherent (external : String → Outcome Process) {raw : Value} {raws : List Value}
    {members : List Process} {d' : Document}
    (hraw : raw.get? "$graph" = some (.sequence raws))
    (hmembers : raws.mapM Normal.process = .ok members)
    (hdistinct : (members.filterMap fun p => p.id?.map memberName).Nodup)
    (hacyclic : ∀ v, ¬ TransGen (Reference.RunsMember members) v v)
    (hload : (loadTree true external raw).result = .ok d') :
    ∃ g', d' = .graph g' ∧
      ∀ chain w w', (Document.graph ⟨raw.text? "cwlVersion", members⟩).Visits d' chain w w' →
        ∀ (i : Nat) s t target q, w.steps[i]? = some s → w'.steps[i]? = some t →
          s.run = .path target → Reference.isLocal target = true → t.run = .inline q →
            g'.find? target = some q := by
  have hnormal : normalTree raw = .ok (.graph ⟨raw.text? "cwlVersion", members⟩) := by
    rw [normalTree, hraw]
    simp only [hmembers]
    rfl
  rw [loadTree_true, hnormal, Outcome.ofExcept_ok_bind] at hload
  have hgraph : ∃ g', d' = .graph g' := by
    obtain ⟨members', -, heq⟩ := Outcome.result_bind_eq_ok_iff.mp hload
    exact ⟨_, (Outcome.result_pure_eq_ok_iff.mp heq).symm⟩
  obtain ⟨g', rfl⟩ := hgraph
  refine ⟨g', rfl, ?_⟩
  intro chain w w' hvisits i s t target q hs ht hrun hlocal hinline
  obtain ⟨p, hfind, hq⟩ :=
    hvisits.exists_followMember hdistinct hacyclic hload hs ht hrun hlocal hinline
  obtain ⟨g'', heq, hfound⟩ := Document.find?_of_result_followMember hdistinct hload hfind hq
  cases heq
  exact hfound

/-- A workflow that runs a file, and one that runs it by its name. -/
def nestedMembers : List Process :=
  [.workflow (oneStep "inner" (.path "file")), .workflow (oneStep "main" (.path "#inner"))]

/-- The second workflow runs the first one, and nothing else in the bundle runs a member. -/
theorem runsMember_nestedMembers {v w : Workflow}
    (h : Reference.RunsMember nestedMembers v w) :
    v = oneStep "main" (.path "#inner") ∧ w = oneStep "inner" (.path "file") := by
  obtain ⟨hv, hw, target, htarget, hlocal, hname⟩ := h
  have hruns {id path : String}
      (h : ProcessOf.Runs (.workflow (oneStep id (.path path))) target) : target = path := by
    cases h with
    | path hs hrun =>
      obtain rfl := List.mem_singleton.mp hs
      exact (Run.path.inj hrun).symm
    | inline hs hrun _ =>
      obtain rfl := List.mem_singleton.mp hs
      cases hrun
  simp only [nestedMembers, List.mem_cons, List.not_mem_nil, or_false,
    ProcessOf.workflow.injEq] at hv hw
  rcases hv with rfl | rfl
  · rw [hruns htarget] at hlocal
    exact absurd hlocal (by decide)
  · rcases hw with rfl | rfl
    · exact ⟨rfl, rfl⟩
    · rw [hruns htarget] at hname
      exact absurd hname (by decide +kernel)

/-- The first workflow as it is loaded, with what its file holds. -/
def innerLoaded : Process :=
  .workflow (oneStep "inner" (.inline (.workflow (oneStep "far" (.path "#gone")))))

/-- The step of the second workflow is given the first one together with what its file holds, as it
is found in the loaded bundle. -/
theorem loadTree_coherent_nestedMembers :
    (∀ v, ¬ TransGen (Reference.RunsMember nestedMembers) v v) ∧
      (loadTree true (fun _ => Outcome.pure (.workflow (oneStep "far" (.path "#gone"))))
        (.tagged "$graph" (.sequence (nestedMembers.map ProcessOf.toCwl)))).result =
          .ok (.graph ⟨none, [innerLoaded, .workflow (oneStep "main" (.inline innerLoaded))]⟩) ∧
      Graph.find? ⟨none, [innerLoaded, .workflow (oneStep "main" (.inline innerLoaded))]⟩ "#inner" =
        some innerLoaded := by
  have hacyclic : ∀ v, ¬ TransGen (Reference.RunsMember nestedMembers) v v := by
    intro v hcycle
    obtain ⟨u, hfirst, -⟩ := TransGen.head'_iff.mp hcycle
    obtain ⟨u', -, hlast⟩ := TransGen.tail'_iff.mp hcycle
    have hsame := (runsMember_nestedMembers hfirst).1.symm.trans (runsMember_nestedMembers hlast).2
    exact absurd hsame (by decide)
  have hmembers : (nestedMembers.map ProcessOf.toCwl).mapM Normal.process = .ok nestedMembers := rfl
  have hload : (loadTree true
      (fun _ => Outcome.pure (.workflow (oneStep "far" (.path "#gone"))))
      (.tagged "$graph" (.sequence (nestedMembers.map ProcessOf.toCwl)))).result =
        .ok (.graph ⟨none, [innerLoaded, .workflow (oneStep "main" (.inline innerLoaded))]⟩) := rfl
  obtain ⟨g', heq, hcoherent⟩ := loadTree_coherent _ rfl hmembers (by decide) hacyclic hload
  cases heq
  refine ⟨hacyclic, hload, ?_⟩
  exact hcoherent _ _ _ (.top (k := 1) rfl rfl) 0 _ _ "#inner" _ rfl rfl rfl (by decide) rfl

end Loader

end CanonicalCwl
