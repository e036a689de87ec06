import CanonicalCwl.Loader.Reference
import CanonicalCwl.Proofs.Loader.Outcome
import CanonicalCwl.Proofs.Process.Within

/-!
# Following the References of a Process

`ProcessOf.Runs` are the paths that the steps of a process run. Following the references of a
process depends on nothing else: it succeeds exactly if each of them can be followed, and it only
changes what the steps run.

- `Run.succeeds_followIn_iff`: when the references of a process can be followed.
- `Run.sameUnless_followIn`: two rules that agree on the paths of a process follow them alike.
- `Run.result_followIn_workflow`: what becomes of a workflow, step by step.
-/

namespace CanonicalCwl

/-- The paths that the steps of a process run, also those of the workflows that they run in
place. -/
inductive ProcessOf.Runs : Process → String → Prop
  | path {w : Workflow} {s : Step} {target : String} :
      s ∈ w.steps → s.run = .path target → Runs (.workflow w) target
  | inline {w : Workflow} {s : Step} {p : Process} {target : String} :
      s ∈ w.steps → s.run = .inline p → Runs p target → Runs (.workflow w) target

/-- The references to files in a process: the paths that do not begin with the mark of a
member. -/
def ProcessOf.RunsFile (p : Process) (target : String) : Prop :=
  p.Runs target ∧ Reference.isLocal target = false

namespace Run

variable {follow follow' : String → Outcome (Option Process)}

/-- Follow the reference of a step. -/
def followStep (follow : String → Outcome (Option Process)) (workflow : Option String)
    (s : Step) : Outcome Step := do
  let run ← followRun follow workflow s.id s.run
  return { s with run }

/-- Steps are followed one after the other. -/
theorem followSteps_eq_mapM (workflow : Option String) (steps : List Step) :
    followSteps follow workflow steps = steps.mapM (followStep follow workflow) := by
  induction steps with
  | nil => rfl
  | cons s rest ih =>
    rw [followSteps, List.mapM_cons, ih]
    simp [followStep]

/-- A workflow is followed step by step. -/
theorem followIn_workflow (w : Workflow) :
    followIn follow (.workflow w) =
      (do return .workflow { w with steps := ← w.steps.mapM (followStep follow w.id) }) := by
  rw [followIn, followSteps_eq_mapM]

/-! ## Success -/

/-- The reference of a step can be followed if it can be, or those in its process. -/
theorem succeeds_followRun_iff {workflow step : Option String} {r : Run} :
    (followRun follow workflow step r).Succeeds ↔
      (∀ target, r = path target → (follow target).Succeeds) ∧
        ∀ p, r = inline p → (followIn follow p).Succeeds := by
  cases r with
  | path target =>
    rw [followRun, Outcome.succeeds_bind_iff_left]
    · simp
    · intro found
      cases found <;> exact ⟨_, rfl⟩
  | inline p =>
    rw [followRun, Outcome.succeeds_bind_iff_left fun _ => Outcome.succeeds_pure _]
    simp

/-- The references of a process can be followed exactly if every path that it runs can be. -/
theorem succeeds_followIn_iff {p : Process} :
    (followIn follow p).Succeeds ↔ ∀ target, p.Runs target → (follow target).Succeeds := by
  induction p using ProcessOf.induction with
  | commandLineTool t | expressionTool t =>
    -- A tool runs nothing, and there is nothing to follow.
    rw [followIn]
    refine ⟨fun _ target hruns => ?_, fun _ => Outcome.succeeds_pure _⟩
    cases hruns
  | workflow w ih =>
    rw [followIn_workflow, Outcome.succeeds_bind_iff_left fun _ => Outcome.succeeds_pure _,
      Outcome.succeeds_mapM_iff]
    have hstep (s : Step) : (followStep follow w.id s).Succeeds ↔
        (∀ target, s.run = path target → (follow target).Succeeds) ∧
          ∀ p, s.run = inline p → (followIn follow p).Succeeds := by
      rw [followStep, Outcome.succeeds_bind_iff_left fun _ => Outcome.succeeds_pure _,
        succeeds_followRun_iff]
    constructor
    · intro h target hruns
      cases hruns with
      | path hs hrun => exact ((hstep _).mp (h _ hs)).1 target hrun
      | inline hs hrun hruns =>
        -- The path is run by a process within the step, which is followed in turn.
        exact (ih _ hs _ hrun).mp (((hstep _).mp (h _ hs)).2 _ hrun) target hruns
    · intro h s hs
      refine (hstep s).mpr ⟨fun target hrun => h target (.path hs hrun), fun p hrun => ?_⟩
      exact (ih s hs p hrun).mpr fun target hruns => h target (.inline hs hrun hruns)

/-- Rules that give the same for the paths that a process runs follow its references alike,
unless the first one ends with an error of some kind. -/
theorem sameUnless_followIn {stops : LoadError → Prop} {p : Process}
    (h : ∀ target, p.Runs target → (follow target).SameUnless stops (follow' target)) :
    (followIn follow p).SameUnless stops (followIn follow' p) := by
  induction p using ProcessOf.induction with
  | commandLineTool t | expressionTool t =>
    rw [followIn, followIn]
    exact .refl _
  | workflow w ih =>
    rw [followIn_workflow, followIn_workflow]
    refine Outcome.SameUnless.bind (.mapM fun s hs => ?_) fun _ _ => .refl _
    -- Each step is followed alike, whether it runs a path or a process in place.
    have hrun : (followRun follow w.id s.id s.run).SameUnless stops
        (followRun follow' w.id s.id s.run) := by
      match hr : s.run with
      | path target =>
        rw [followRun, followRun]
        exact (h target (.path hs hr)).bind fun _ _ => .refl _
      | inline p =>
        rw [followRun, followRun]
        exact (ih s hs p hr fun target hruns => h target (.inline hs hr hruns)).bind
          fun _ _ => .refl _
    exact hrun.bind fun _ _ => .refl _

/-- Rules that agree on the paths that a process runs follow its references alike. -/
theorem followIn_congr {p : Process}
    (h : ∀ target, p.Runs target → follow target = follow' target) :
    followIn follow p = followIn follow' p := by
  have hsame : (followIn follow p).SameUnless (fun _ => False) (followIn follow' p) :=
    sameUnless_followIn fun target hruns => .inl (h target hruns).symm
  exact (hsame.eq nofun).symm

/-! ## Results -/

/-- What a step runs after its reference, or those in its process, were followed. -/
inductive Followed (follow : String → Outcome (Option Process)) : Run → Run → Prop
  | found {target p} :
      (follow target).result = .ok (some p) → Followed follow (path target) (inline p)
  | dangling {target} :
      (follow target).result = .ok none → Followed follow (path target) (path target)
  | inline {p p'} : (followIn follow p).result = .ok p' → Followed follow (inline p) (inline p')

/-- A path whose rule gives a value that is at hand becomes the process there, if any. -/
theorem Followed.eq_of_pure {target : String} {found : Option Process} {r : Run}
    (h : Followed follow (path target) r) (hfound : follow target = pure found) :
    r = (found.map Run.inline).getD (path target) := by
  cases h with
  | found h =>
    rw [hfound] at h
    obtain rfl := Outcome.result_pure_eq_ok_iff.mp h
    rfl
  | dangling h =>
    rw [hfound] at h
    obtain rfl := Outcome.result_pure_eq_ok_iff.mp h
    rfl

/-- A path whose rule gives a process after something else was done becomes that process. -/
theorem Followed.eq_of_bind {target : String} {x : Outcome Process} {r : Run}
    (h : Followed follow (path target) r) (hfound : follow target = do return some (← x)) :
    ∃ p, x.result = .ok p ∧ r = .inline p := by
  cases h with
  | found h =>
    rw [hfound, Outcome.result_bind_eq_ok_iff] at h
    obtain ⟨p, hp, h⟩ := h
    obtain rfl := Option.some.inj (Outcome.result_pure_eq_ok_iff.mp h)
    exact ⟨_, hp, rfl⟩
  | dangling h =>
    rw [hfound, Outcome.result_bind_eq_ok_iff] at h
    obtain ⟨p, -, h⟩ := h
    cases Outcome.result_pure_eq_ok_iff.mp h

/-- The result of following the reference of a step. -/
theorem result_followRun_eq_ok_iff {workflow step : Option String} {r r' : Run} :
    (followRun follow workflow step r).result = .ok r' ↔ Followed follow r r' := by
  cases r with
  | path target =>
    rw [followRun, Outcome.result_bind_eq_ok_iff]
    constructor
    · rintro ⟨found, hfound, h⟩
      cases found with
      | none =>
        -- A dangling reference is reported, and the path stays.
        obtain ⟨_, -, h⟩ := Outcome.result_bind_eq_ok_iff.mp h
        obtain rfl := Outcome.result_pure_eq_ok_iff.mp h
        exact .dangling hfound
      | some p =>
        obtain rfl := Outcome.result_pure_eq_ok_iff.mp h
        exact .found hfound
    · intro h
      cases h with
      | found h => exact ⟨_, h, rfl⟩
      | dangling h => exact ⟨_, h, rfl⟩
  | inline p =>
    rw [followRun, Outcome.result_bind_eq_ok_iff]
    constructor
    · rintro ⟨p', hp', h⟩
      obtain rfl := Outcome.result_pure_eq_ok_iff.mp h
      exact .inline hp'
    · intro h
      cases h with
      | inline h => exact ⟨_, h, rfl⟩

/-- Following the references of a workflow gives the same workflow with steps that differ in
what they run. -/
theorem result_followIn_workflow {w : Workflow} {p : Process} :
    (followIn follow (.workflow w)).result = .ok p ↔
      ∃ steps, p = .workflow { w with steps } ∧
        List.Forall₂ (fun s t => t = { s with run := t.run } ∧ Followed follow s.run t.run)
          w.steps steps := by
  have hstep (s t : Step) : (followStep follow w.id s).result = .ok t ↔
      t = { s with run := t.run } ∧ Followed follow s.run t.run := by
    rw [followStep, Outcome.result_bind_eq_ok_iff]
    simp only [result_followRun_eq_ok_iff, Outcome.result_pure_eq_ok_iff]
    constructor
    · rintro ⟨r, hr, rfl⟩
      exact ⟨rfl, hr⟩
    · rintro ⟨ht, hr⟩
      exact ⟨t.run, hr, ht.symm⟩
  rw [followIn_workflow, Outcome.result_bind_eq_ok_iff]
  simp only [Outcome.result_mapM_eq_ok_iff, Outcome.result_pure_eq_ok_iff, hstep]
  exact ⟨fun ⟨steps, hsteps, hp⟩ => ⟨steps, hp.symm, hsteps⟩,
    fun ⟨steps, hp, hsteps⟩ => ⟨steps, hsteps, hp.symm⟩⟩

/-- Following the references of a process keeps its header. -/
theorem header_of_result_followIn {p p' : Process} (h : (followIn follow p).result = .ok p') :
    p'.header = p.header := by
  cases p with
  | commandLineTool t | expressionTool t =>
    rw [followIn, Outcome.result_pure_eq_ok_iff] at h
    rw [← h]
  | workflow w =>
    obtain ⟨steps, rfl, -⟩ := result_followIn_workflow.mp h
    rfl

end Run

/-! ## References inside a bundle -/

/-- A member that was found is one of the members. -/
theorem mem_of_findMember {members : List Process} {name : String} {p : Process}
    (h : findMember members name = some p) : p ∈ members :=
  List.mem_of_find?_eq_some h

/-- A member that was found has the name. -/
theorem name_of_findMember {members : List Process} {name : String} {p : Process}
    (h : findMember members name = some p) : p.id?.map memberName = some (memberName name) := by
  have hp := List.find?_some h
  exact eq_of_beq hp

/-- No member is found exactly if none has the name. -/
theorem findMember_eq_none_iff {members : List Process} {name : String} :
    findMember members name = none ↔
      ∀ p ∈ members, p.id?.map memberName ≠ some (memberName name) := by
  rw [findMember, List.find?_eq_none]
  simp

namespace Reference

variable {external external' : String → Outcome Process} {bundle : List Process} {room : Nat}
  {seen : List String} {target : String}

/-- What a reference can mean inside a bundle, for a step inside workflows of some names. -/
inductive Meaning (bundle : List Process) (seen : List String) (target : String) : Prop
  /-- A file. -/
  | file : isLocal target = false → Meaning bundle seen target
  /-- A member that is not there. -/
  | absent : isLocal target = true → findMember bundle target = none → Meaning bundle seen target
  /-- A member that has no steps. -/
  | tool {p : Process} : isLocal target = true → findMember bundle target = some p →
      p.workflow? = none → Meaning bundle seen target
  /-- A workflow that the step is inside of. -/
  | enclosing {w : Workflow} : isLocal target = true →
      findMember bundle target = some (.workflow w) → memberName target ∈ seen →
      Meaning bundle seen target
  /-- Another workflow. -/
  | workflow {w : Workflow} : isLocal target = true →
      findMember bundle target = some (.workflow w) → memberName target ∉ seen →
      Meaning bundle seen target

/-- Every reference has a meaning. -/
theorem meaning (bundle : List Process) (seen : List String) (target : String) :
    Meaning bundle seen target := by
  cases h : isLocal target with
  | false => exact .file h
  | true =>
    match hfind : findMember bundle target with
    | none => exact .absent h hfind
    | some (.commandLineTool t) => exact .tool h hfind rfl
    | some (.expressionTool t) => exact .tool h hfind rfl
    | some (.workflow w) =>
      by_cases hseen : memberName target ∈ seen
      · exact .enclosing h hfind hseen
      · exact .workflow h hfind hseen

/-- A reference to a file is followed by looking for the file. -/
theorem follow_file (h : isLocal target = false) :
    follow external bundle room seen target = (do return some (← external target)) := by
  unfold follow
  simp [h]

/-- A reference to a member that is not there is left dangling. -/
theorem follow_absent (h : isLocal target = true) (hfind : findMember bundle target = none) :
    follow external bundle room seen target = return none := by
  unfold follow
  simp [h, hfind]

/-- A member that has no steps is put in as it is. -/
theorem follow_tool (h : isLocal target = true) {p : Process}
    (hfind : findMember bundle target = some p) (htool : p.workflow? = none) :
    follow external bundle room seen target = return some p := by
  unfold follow
  cases p with
  | workflow w => cases htool
  | _ => simp [h, hfind]

/-- A workflow is not put into itself. -/
theorem follow_enclosing (h : isLocal target = true) {w : Workflow}
    (hfind : findMember bundle target = some (.workflow w)) (hseen : memberName target ∈ seen) :
    follow external bundle room seen target = return none := by
  unfold follow
  simp [h, hfind, hseen]

/-- A workflow is put in with its own references followed, while there is room. -/
theorem follow_workflow (h : isLocal target = true) {w : Workflow}
    (hfind : findMember bundle target = some (.workflow w)) (hseen : memberName target ∉ seen) :
    follow external bundle (room + 1) seen target = (do
      let followed ← Run.followIn (follow external bundle room (memberName target :: seen))
        (.workflow w)
      return some followed) := by
  rw [follow]
  simp [h, hfind, hseen]

/-- Without room nothing more is put in. -/
theorem follow_workflow_zero (h : isLocal target = true) {w : Workflow}
    (hfind : findMember bundle target = some (.workflow w)) (hseen : memberName target ∉ seen) :
    follow external bundle 0 seen target = return none := by
  rw [follow]
  simp [h, hfind, hseen]

/-- Without members it makes no difference which of them enclose the step. -/
theorem follow_nil (room : Nat) (seen : List String) (target : String) :
    follow external [] room seen target = follow external [] 0 [] target := by
  cases h : isLocal target with
  | false => rw [follow_file h, follow_file h]
  | true => rw [follow_absent h rfl, follow_absent h rfl]

/-- Workflows of some names enclose a step, and there is room for the members that do not. -/
structure Fits (bundle : List Process) (room : Nat) (seen : List String) : Prop where
  /-- No name occurs twice. -/
  nodup : seen.Nodup
  /-- The names are those of members. -/
  named : ∀ name ∈ seen, ∃ p ∈ bundle, p.id?.map memberName = some name
  /-- There is room for as many members as do not enclose the step. -/
  room : bundle.length ≤ room + seen.length

/-- A step is enclosed by no more names than there are members. -/
theorem Fits.length_le (h : Fits bundle room seen) : seen.length ≤ bundle.length := by
  -- A member has at most one name.
  have hsub : seen ⊆ bundle.filterMap fun p => p.id?.map memberName := by
    intro name hname
    obtain ⟨p, hp, hid⟩ := h.named name hname
    exact List.mem_filterMap.mpr ⟨p, hp, hid⟩
  exact Nat.le_trans (h.nodup.length_le_of_subset hsub) (List.length_filterMap_le ..)

/-- Without members there is room for all of them. -/
theorem Fits.nil (room : Nat) : Fits [] room [] := ⟨.nil, by simp, Nat.zero_le _⟩

/-- At first a step is enclosed by no more than the member that it is in. -/
theorem Fits.of_mem {p : Process} (h : p ∈ bundle) :
    Fits bundle bundle.length (p.id?.map memberName).toList := by
  constructor
  case nodup => cases p.id? <;> simp
  case named => exact fun name hname => ⟨p, h, by simpa using hname⟩
  case room => exact Nat.le_add_right ..

/-- There is room for a member that does not enclose the step yet. -/
theorem Fits.exists_enter (h : Fits bundle room seen) {p : Process}
    (hfind : findMember bundle target = some p) (hseen : memberName target ∉ seen) :
    ∃ room', room = room' + 1 ∧ Fits bundle room' (memberName target :: seen) := by
  have hnodup : (memberName target :: seen).Nodup := List.nodup_cons.mpr ⟨hseen, h.nodup⟩
  have hnamed : ∀ name ∈ memberName target :: seen,
      ∃ p ∈ bundle, p.id?.map memberName = some name := by
    intro name hname
    rcases List.mem_cons.mp hname with rfl | hname
    · exact ⟨p, mem_of_findMember hfind, name_of_findMember hfind⟩
    · exact h.named name hname
  have hroom := h.room
  have hfits : Fits bundle room (memberName target :: seen) :=
    ⟨hnodup, hnamed, by simp only [List.length_cons]; omega⟩
  -- With the new name there are still no more names than members.
  have hlength := hfits.length_le
  rw [List.length_cons] at hlength
  refine ⟨room - 1, by omega, hnodup, hnamed, ?_⟩
  simp only [List.length_cons]
  omega

/-- Two ways to find files that give the same for the references of the bundle, and for the
reference that is followed, follow it alike, unless the first one ends with an error of some
kind. -/
theorem sameUnless_follow {stops : LoadError → Prop}
    (hbundle : ∀ p ∈ bundle, ∀ file, p.RunsFile file →
      (external file).SameUnless stops (external' file))
    (room : Nat) (seen : List String) {target : String}
    (htarget : isLocal target = false →
      (external target).SameUnless stops (external' target)) :
    (follow external bundle room seen target).SameUnless stops
      (follow external' bundle room seen target) := by
  cases meaning bundle seen target with
  | file h =>
    rw [follow_file h, follow_file h]
    exact (htarget h).bind fun _ _ => .refl _
  | absent h hfind =>
    rw [follow_absent h hfind, follow_absent h hfind]
    exact .refl _
  | tool h hfind htool =>
    rw [follow_tool h hfind htool, follow_tool h hfind htool]
    exact .refl _
  | enclosing h hfind hseen =>
    rw [follow_enclosing h hfind hseen, follow_enclosing h hfind hseen]
    exact .refl _
  | workflow h hfind hseen =>
    cases room with
    | zero =>
      rw [follow_workflow_zero h hfind hseen, follow_workflow_zero h hfind hseen]
      exact .refl _
    | succ room =>
      -- Inside the member only references of the bundle are left.
      rw [follow_workflow h hfind hseen, follow_workflow h hfind hseen]
      refine Outcome.SameUnless.bind (Run.sameUnless_followIn fun path hruns => ?_)
        fun _ _ => .refl _
      exact sameUnless_follow hbundle room _ fun hfile =>
        hbundle _ (mem_of_findMember hfind) path ⟨hruns, hfile⟩
termination_by room

/-- A reference can be followed if the files that the bundle and the reference mean can be
found. -/
theorem succeeds_follow
    (hbundle : ∀ p ∈ bundle, ∀ file, p.RunsFile file → (external file).Succeeds)
    (room : Nat) (seen : List String) {target : String}
    (htarget : isLocal target = false → (external target).Succeeds) :
    (follow external bundle room seen target).Succeeds := by
  cases meaning bundle seen target with
  | file h =>
    rw [follow_file h, Outcome.succeeds_bind_iff_left fun _ => Outcome.succeeds_pure _]
    exact htarget h
  | absent h hfind =>
    rw [follow_absent h hfind]
    exact Outcome.succeeds_pure _
  | tool h hfind htool =>
    rw [follow_tool h hfind htool]
    exact Outcome.succeeds_pure _
  | enclosing h hfind hseen =>
    rw [follow_enclosing h hfind hseen]
    exact Outcome.succeeds_pure _
  | workflow h hfind hseen =>
    cases room with
    | zero =>
      rw [follow_workflow_zero h hfind hseen]
      exact Outcome.succeeds_pure _
    | succ room =>
      -- The references inside are those of a member, whose files can be found.
      rw [follow_workflow h hfind hseen,
        Outcome.succeeds_bind_iff_left fun _ => Outcome.succeeds_pure _,
        Run.succeeds_followIn_iff]
      refine fun path hruns => succeeds_follow hbundle room _ fun hfile => ?_
      exact hbundle _ (mem_of_findMember hfind) path ⟨hruns, hfile⟩
termination_by room

/-- The references of a member can be followed if the files that the bundle and the member mean
can be found. -/
theorem succeeds_followMember
    (hbundle : ∀ p ∈ bundle, ∀ file, p.RunsFile file → (external file).Succeeds) {p : Process}
    (hp : ∀ file, p.RunsFile file → (external file).Succeeds) :
    (followMember external bundle p).Succeeds := by
  rw [followMember, Run.succeeds_followIn_iff]
  exact fun target hruns => succeeds_follow hbundle _ _ fun hfile => hp target ⟨hruns, hfile⟩

/-- The files that a member means were found if its references could be followed. -/
theorem succeeds_external_of_followMember {p : Process}
    (h : (followMember external bundle p).Succeeds) {file : String} (hfile : p.RunsFile file) :
    (external file).Succeeds := by
  rw [followMember, Run.succeeds_followIn_iff] at h
  have hfollow := h file hfile.1
  rwa [follow_file hfile.2,
    Outcome.succeeds_bind_iff_left fun _ => Outcome.succeeds_pure _] at hfollow

/-- Two ways to find files that give the same for the references of the bundle and of a member
follow those of the member alike, unless the first one ends with an error of some kind. -/
theorem sameUnless_followMember {stops : LoadError → Prop}
    (hbundle : ∀ p ∈ bundle, ∀ file, p.RunsFile file →
      (external file).SameUnless stops (external' file))
    {p : Process}
    (hp : ∀ file, p.RunsFile file → (external file).SameUnless stops (external' file)) :
    (followMember external bundle p).SameUnless stops (followMember external' bundle p) :=
  Run.sameUnless_followIn fun target hruns =>
    sameUnless_follow hbundle _ _ fun hfile => hp target ⟨hruns, hfile⟩

end Reference

end CanonicalCwl
