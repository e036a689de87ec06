import CanonicalCwl.Proofs.Loader.File

/-!
# A Loader and Its State

`Loader.loadFile` is told which files are being loaded and how many more there may be. A loader
keeps the files on a stack of its own instead: a file is put on it before the document there is
looked at and taken off afterwards, whether that succeeds or not, and the dangling references
are added to a list that the loader keeps as well. Its procedures call each other freely, and
nothing in them bounds how often.

Here they are run step by step, with the calls that are to be returned to as frames, so that the
state can be seen at any time.

- `Program.Realizes`: a program comes to an end, with the result and the reports of an outcome,
  and leaves the stack as it found it.
- `Program.realizes_load`, `Program.realizes_loadTree`: the procedures of a loader realize
  `loadFile` and `loadTree`.
- `Loader.call_ends`: every call comes to an end, the stack is in order all the time, and
  afterwards it is what it was.
-/

namespace CanonicalCwl.Loader

/-! ## Programs of a loader -/

/-- The state of a loader. -/
structure Session where
  /-- The files that are being loaded, innermost first. -/
  stack : List Location
  /-- The dangling references that were reported. -/
  unresolved : List UnresolvedReference

/-- The procedures of a loader, by what they give. -/
inductive Procedure : Type → Type
  /-- Load the file that a path leads to. -/
  | load (path : String) : Procedure Document
  /-- Load a tree, with its references to files taken from a directory. -/
  | loadTree (raw : Value) (directory : String) : Procedure Document
  /-- Follow the references of a process, in steps that are inside workflows of some names. -/
  | followIn (directory : String) (bundle : List Process) (seen : List String) (p : Process) :
      Procedure Process
  /-- Follow one reference, in a step that is inside workflows of some names. -/
  | follow (directory : String) (bundle : List Process) (seen : List String) (target : String) :
      Procedure (Option Process)

/-- What a procedure does. -/
inductive Program : Type → Type 1
  /-- End with a result. -/
  | done {α : Type} (result : Except LoadError α) : Program α
  /-- Look at the state. -/
  | get : Program Session
  /-- Change the state. -/
  | modify (change : Session → Session) : Program Unit
  /-- Go on with the result of a program, be it a value or an error. -/
  | andThen {α β : Type} (x : Program α) (next : Except LoadError α → Program β) : Program β
  /-- Call a procedure. -/
  | call {α : Type} (procedure : Procedure α) : Program α

namespace Program

variable {α β : Type}

/-- Fail. -/
def fail (e : LoadError) : Program α := .done (.error e)

/-- Go on with a value. After an error nothing is gone on with. -/
def onValue (f : α → Program β) : Except LoadError α → Program β
  | .ok a => f a
  | .error e => fail e

instance : Monad Program where
  pure a := .done (.ok a)
  bind x f := .andThen x (onValue f)

/-- Report a dangling reference. -/
def report (r : UnresolvedReference) : Program Unit :=
  .modify fun σ => { σ with unresolved := σ.unresolved ++ [r] }

/-- Put a file on the stack. -/
def push (place : Location) : Program Unit :=
  .modify fun σ => { σ with stack := place :: σ.stack }

/-- Take the innermost file off the stack. -/
def pop : Program Unit := .modify fun σ => { σ with stack := σ.stack.tail }

/-- Do something while a file is on the stack. An error is held back until the file is off. -/
def onStack (place : Location) (x : Program α) : Program α := do
  push place
  .andThen x fun result => do
    pop
    .done result

/-- Do something for each of a list, one after the other. -/
def each (f : α → Program β) : List α → Program (List β)
  | [] => return []
  | a :: as => do
      let b ← f a
      let bs ← each f as
      return b :: bs

/-- The body of the procedure that loads a file. -/
def load (fs : Files) (settings : Settings) (path : String) : Program Document :=
  match fs.locate path with
  | .error cause => fail (.io path cause)
  | .ok place => do
      let σ ← get
      -- The limit is looked at last, so that a cycle is always called a cycle.
      if σ.stack.contains place then fail (.referenceCycle (fs.showLocation place))
      else if settings.maxDepth ≤ σ.stack.length then
        fail (.recursionLimit (fs.showLocation place) settings.maxDepth)
      else
        let raw ← .done (fs.treeAt place)
        onStack place (.call (.loadTree raw (directoryOf fs place)))

/-- The body of the procedure that loads a tree. -/
def loadTree (settings : Settings) (raw : Value) (directory : String) : Program Document := do
  let d ← .done (normalTree raw)
  if settings.resolve then
    match d with
    | .process p =>
        -- Without a bundle, references to members lead nowhere.
        return .process (← .call (.followIn directory [] [] p))
    | .graph g =>
        let members ← each (fun p =>
          .call (.followIn directory g.members (p.id?.map memberName).toList p)) g.members
        return .graph { g with members }
  else return d

/-- Follow the reference of a step, or those inside its process. -/
def followRun (directory : String) (bundle : List Process) (seen : List String)
    (workflow step : Option String) : Run → Program Run
  | .path target => do
      match ← .call (.follow directory bundle seen target) with
      | some p => return .inline p
      | none => do
          report ⟨workflow, step, target⟩
          return .path target
  | .inline p => do return .inline (← .call (.followIn directory bundle seen p))

/-- The body of the procedure that follows the references of a process. -/
def followIn (directory : String) (bundle : List Process) (seen : List String) :
    Process → Program Process
  | .commandLineTool t => return .commandLineTool t
  | .expressionTool t => return .expressionTool t
  | .workflow w => do
      let steps ← each (fun s => do
        let run ← followRun directory bundle seen w.id s.id s.run
        return { s with run }) w.steps
      return .workflow { w with steps }

/-- The body of the procedure that follows one reference. -/
def follow (directory : String) (bundle : List Process) (seen : List String) (target : String) :
    Program (Option Process) :=
  if Reference.isLocal target then
    match findMember bundle target with
    | none => return none
    | some (.workflow w) =>
        -- A workflow cannot be put into itself; only workflows have steps to follow.
        if seen.contains (memberName target) then return none
        else do
          return some (← .call (.followIn directory bundle (memberName target :: seen)
            (.workflow w)))
    | some tool => return some tool
  else do
    let path := Path.join directory (Reference.split target).1
    let d ← .call (.load path)
    return some (← .done (Reference.select d (Reference.split target).2 path))

/-- The body of a procedure. -/
def body (fs : Files) (settings : Settings) : Procedure α → Program α
  | .load path => load fs settings path
  | .loadTree raw directory => loadTree settings raw directory
  | .followIn directory bundle seen p => followIn directory bundle seen p
  | .follow directory bundle seen target => follow directory bundle seen target

end Program

/-! ## Running a program -/

/-- What is to be gone on with, innermost first, until a result of type `γ` is there. -/
inductive Frames (γ : Type) : Type → Type 1
  /-- Nothing: the result is there. -/
  | nil : Frames γ γ
  /-- Something that needs a result of type `α`. -/
  | cons {α β : Type} (next : Except LoadError α → Program β) (rest : Frames γ β) : Frames γ α

/-- A program that is running. -/
structure Config (γ : Type) where
  /-- What the program gives that is being done. -/
  {value : Type}
  /-- What is being done. -/
  now : Program value
  /-- What is to be gone on with. -/
  frames : Frames γ value
  session : Session

variable {α β γ : Type}

/-- One step of a program that is running. There is none when it has come to an end: a result is
there and nothing is to be gone on with. -/
def step (fs : Files) (settings : Settings) : Config γ → Option (Config γ)
  | ⟨.done _, .nil, _⟩ => none
  | ⟨.done result, .cons next rest, σ⟩ => some ⟨next result, rest, σ⟩
  | ⟨.get, frames, σ⟩ => some ⟨.done (.ok σ), frames, σ⟩
  | ⟨.modify change, frames, σ⟩ => some ⟨.done (.ok ()), frames, change σ⟩
  | ⟨.andThen x next, frames, σ⟩ => some ⟨x, .cons next frames, σ⟩
  | ⟨.call procedure, frames, σ⟩ => some ⟨Program.body fs settings procedure, frames, σ⟩

/-- What a program that is running comes to, in any number of steps. -/
def Runs (fs : Files) (settings : Settings) : Config γ → Config γ → Prop :=
  Relation.ReflTransGen fun c c' => step fs settings c = some c'

/-- What a program that is running comes to while the stack has some property. -/
def RunsWithin (fs : Files) (settings : Settings) (P : List Location → Prop) :
    Config γ → Config γ → Prop :=
  Relation.ReflTransGen fun c c' => step fs settings c = some c' ∧ P c'.session.stack

variable {fs : Files} {settings : Settings} {P Q : List Location → Prop} {c c' : Config γ}

/-- What is said about the stack can be left out. -/
theorem RunsWithin.runs (h : RunsWithin fs settings P c c') : Runs fs settings c c' :=
  Relation.ReflTransGen.mono (fun _ _ hstep => hstep.1) _ _ h

/-- What is said about the stack can be weakened. -/
theorem RunsWithin.imp (hPQ : ∀ stack, P stack → Q stack) (h : RunsWithin fs settings P c c') :
    RunsWithin fs settings Q c c' :=
  Relation.ReflTransGen.mono (fun _ _ hstep => ⟨hstep.1, hPQ _ hstep.2⟩) _ _ h

/-- One step, in which the stack keeps the property. -/
theorem RunsWithin.step (hstep : step fs settings c = some c') (hP : P c'.session.stack) :
    RunsWithin fs settings P c c' :=
  .single ⟨hstep, hP⟩

/-- If a program comes to an end while the stack has some property, then it has the property at
all times. -/
theorem RunsWithin.forall_runs (h : RunsWithin fs settings P c c')
    (hend : Loader.step fs settings c' = none) (hc : P c.session.stack) {d : Config γ}
    (hd : Runs fs settings c d) : P d.session.stack := by
  -- There is only one way to go on, and it leads to the end.
  induction h using Relation.ReflTransGen.head_induction_on with
  | refl =>
    rcases hd.cases_head with rfl | ⟨e, he, -⟩
    · exact hc
    · rw [hend] at he
      cases he
  | head hstep _ ih =>
    rcases hd.cases_head with rfl | ⟨e, he, hd⟩
    · exact hc
    · obtain rfl := Option.some.inj (hstep.1.symm.trans he)
      exact ih hstep.2 hd

/-! ## Programs that realize outcomes -/

/-- No file is on the stack twice, and there are not too many. -/
structure Proper (limit : Nat) (stack : List Location) : Prop where
  nodup : stack.Nodup
  length_le : stack.length ≤ limit

namespace Program

/-- With some files on the stack, a program comes to an end, whatever is to be gone on with then.
It gives the result of an outcome and adds its reports, and the same files are on the stack. If
the stack was proper, then so it is all the time. -/
def Realizes (fs : Files) (settings : Settings) (stack : List Location) (x : Program α)
    (o : Outcome α) : Prop :=
  ∀ (γ : Type) (frames : Frames γ α) (unresolved : List UnresolvedReference),
    RunsWithin fs settings
      (fun s => Proper settings.maxDepth stack → Proper settings.maxDepth s)
      ⟨x, frames, ⟨stack, unresolved⟩⟩
      ⟨.done o.result, frames, ⟨stack, unresolved ++ o.unresolved⟩⟩

variable {stack : List Location}

namespace Realizes

/-- A result that is at hand. -/
theorem done (result : Except LoadError α) :
    Realizes fs settings stack (.done result) (Outcome.ofExcept result) := by
  intro γ frames unresolved
  rw [Outcome.ofExcept, List.append_nil]
  exact .refl

/-- A value. -/
theorem pure (a : α) : Realizes fs settings stack (Pure.pure a) (Pure.pure a) := done (.ok a)

/-- An error. -/
theorem fail (e : LoadError) : Realizes fs settings stack (Program.fail e : Program α) (.fail e) :=
  done (.error e)

/-- A report. -/
theorem report (r : UnresolvedReference) :
    Realizes fs settings stack (Program.report r) (.report r) :=
  fun _ _ _ => .step rfl id

/-- A look at the state shows the files on the stack. -/
theorem get {f : Session → Program α} {o : Outcome α}
    (h : ∀ σ, σ.stack = stack → Realizes fs settings stack (f σ) o) :
    Realizes fs settings stack (Program.get >>= f) o := by
  intro γ frames unresolved
  have hlook := h ⟨stack, unresolved⟩ rfl γ frames unresolved
  exact .head ⟨rfl, id⟩ (.head ⟨rfl, id⟩ (.head ⟨rfl, id⟩ hlook))

/-- Going on with a result. -/
theorem andThen {x : Program α} {o : Outcome α} {next : Except LoadError α → Program β}
    {o' : Outcome β} (hx : Realizes fs settings stack x o)
    (hnext : Realizes fs settings stack (next o.result) o') :
    Realizes fs settings stack (.andThen x next) ⟨o'.result, o.unresolved ++ o'.unresolved⟩ := by
  intro γ frames unresolved
  have hfirst := hx γ (.cons next frames) unresolved
  have hthen := hnext γ frames (unresolved ++ o.unresolved)
  rw [List.append_assoc] at hthen
  exact .head ⟨rfl, id⟩ (hfirst.trans (.head ⟨rfl, id⟩ hthen))

/-- One after the other. -/
theorem bind {x : Program α} {o : Outcome α} (hx : Realizes fs settings stack x o)
    {f : α → Program β} {g : α → Outcome β} (hf : ∀ a, Realizes fs settings stack (f a) (g a)) :
    Realizes fs settings stack (x >>= f) (o >>= g) := by
  cases hresult : o.result with
  | ok a =>
    have hnext : Realizes fs settings stack (onValue f o.result) (g a) := hresult ▸ hf a
    rw [Outcome.bind_eq_of_result_eq_ok hresult]
    exact hx.andThen hnext
  | error e =>
    have hnext : Realizes fs settings stack (onValue f o.result) (.fail e) := hresult ▸ fail e
    have hstop := hx.andThen hnext
    rw [Outcome.bind_eq_of_result_eq_error hresult]
    rwa [Outcome.fail, Outcome.ofExcept, List.append_nil] at hstop

/-- For each of a list. -/
theorem each {f : α → Program β} {g : α → Outcome β} {as : List α}
    (h : ∀ a ∈ as, Realizes fs settings stack (f a) (g a)) :
    Realizes fs settings stack (each f as) (as.mapM g) := by
  induction as with
  | nil => exact pure []
  | cons a as ih =>
    obtain ⟨ha, has⟩ := List.forall_mem_cons.mp h
    rw [List.mapM_cons, Program.each]
    exact ha.bind fun b => (ih has).bind fun bs => pure (b :: bs)

/-- A procedure that is called does what its body does. -/
theorem call {procedure : Procedure α} {o : Outcome α}
    (h : Realizes fs settings stack (body fs settings procedure) o) :
    Realizes fs settings stack (.call procedure) o :=
  fun γ frames unresolved => .head ⟨rfl, id⟩ (h γ frames unresolved)

/-- What is realized with one file more on the stack, while the file is on the stack. -/
theorem onStack {place : Location} (hplace : place ∉ stack)
    (hlimit : stack.length < settings.maxDepth) {x : Program α} {o : Outcome α}
    (h : Realizes fs settings (place :: stack) x o) :
    Realizes fs settings stack (onStack place x) o := by
  intro γ frames unresolved
  have hpush (hstack : Proper settings.maxDepth stack) :
      Proper settings.maxDepth (place :: stack) :=
    ⟨List.nodup_cons.mpr ⟨hplace, hstack.nodup⟩, hlimit⟩
  have hinside := (h γ (.cons (fun result => do pop; .done result) frames) unresolved).imp
    fun _ hproper hstack => hproper (hpush hstack)
  -- The file is pushed in four steps and popped in four, and in between there is what is inside.
  refine .head ⟨rfl, id⟩ (.head ⟨rfl, hpush⟩ (.head ⟨rfl, hpush⟩ (.head ⟨rfl, hpush⟩ ?_)))
  refine hinside.trans ?_
  exact .head ⟨rfl, hpush⟩ (.head ⟨rfl, hpush⟩ (.head ⟨rfl, id⟩ (.head ⟨rfl, id⟩ .refl)))

end Realizes

/-! ## The procedures of a loader -/

variable {directory : String} {bundle : List Process} {seen : List String}
  {loaded : String → Outcome Document}

/-- The references of a process are followed by the rule that single references are followed
by. -/
theorem realizes_followIn {rule : String → Outcome (Option Process)} {p : Process}
    (h : ∀ target, p.Runs target →
      Realizes fs settings stack (.call (.follow directory bundle seen target)) (rule target)) :
    Realizes fs settings stack (.call (.followIn directory bundle seen p))
      (Run.followIn rule p) := by
  refine .call ?_
  rw [body]
  induction p using ProcessOf.induction with
  | commandLineTool t | expressionTool t =>
    rw [followIn, Run.followIn]
    exact .pure _
  | workflow w ih =>
    rw [followIn, Run.followIn_workflow]
    refine (Realizes.each fun s hs => ?_).bind fun _ => .pure _
    have hrun : Realizes fs settings stack (followRun directory bundle seen w.id s.id s.run)
        (Run.followRun rule w.id s.id s.run) := by
      cases hr : s.run with
      | path target =>
        rw [followRun, Run.followRun]
        refine (h target (.path hs hr)).bind fun found => ?_
        cases found with
        | some p => exact .pure _
        | none => exact (Realizes.report _).bind fun _ => .pure _
      | inline q =>
        rw [followRun, Run.followRun]
        refine (Realizes.call ?_).bind fun _ => .pure _
        exact ih s hs q hr fun target hruns => h target (.inline hs hr hruns)
    exact hrun.bind fun _ => .pure _

/-- A reference is followed by the rule for references. That the rule stops when there is no room
makes no difference: each member that is entered is another one, so that there is room. -/
theorem realizes_follow
    (hload : ∀ path, Realizes fs settings stack (.call (.load path)) (loaded path)) {room : Nat}
    {seen : List String} (hfits : Reference.Fits bundle room seen) (target : String) :
    Realizes fs settings stack (.call (.follow directory bundle seen target))
      (Reference.follow (external loaded directory) bundle room seen target) := by
  refine .call ?_
  rw [body, follow]
  cases Reference.meaning bundle seen target with
  | file h =>
    rw [Reference.follow_file h, external_eq, bind_assoc]
    simp only [h]
    exact (hload _).bind fun d => (Realizes.done _).bind fun _ => .pure _
  | absent h hfind =>
    rw [Reference.follow_absent h hfind]
    simp only [h, hfind]
    exact .pure _
  | @tool p h hfind htool =>
    rw [Reference.follow_tool h hfind htool]
    cases p with
    | workflow w => cases htool
    | commandLineTool t | expressionTool t =>
      simp only [h, hfind]
      exact .pure _
  | enclosing h hfind hseen =>
    rw [Reference.follow_enclosing h hfind hseen]
    simp only [h, hfind, List.contains_iff_mem, hseen]
    exact .pure _
  | workflow h hfind hseen =>
    obtain ⟨room', hroom, hfits⟩ := hfits.exists_enter hfind hseen
    rw [hroom, Reference.follow_workflow h hfind hseen]
    simp only [h, hfind, List.contains_iff_mem, hseen]
    exact (realizes_followIn fun target _ => realizes_follow hload hfits target).bind
      fun _ => .pure _
termination_by room

/-- A tree is loaded from the files that its references mean. -/
theorem realizes_loadTree
    (hload : ∀ path, Realizes fs settings stack (.call (.load path)) (loaded path)) (raw : Value)
    (directory : String) :
    Realizes fs settings stack (.call (.loadTree raw directory))
      (Loader.loadTree settings.resolve (external loaded directory) raw) := by
  refine .call ?_
  rw [body, loadTree, Loader.loadTree_eq]
  refine (Realizes.done _).bind fun d => ?_
  split
  · cases d with
    | process p =>
      refine Realizes.bind ?_ fun _ => .pure _
      rw [Reference.followMember, List.length_nil]
      refine realizes_followIn fun target _ => ?_
      rw [Reference.follow_nil]
      exact realizes_follow hload (.nil 0) target
    | graph g =>
      refine (Realizes.each fun p hp => ?_).bind fun _ => .pure _
      rw [Reference.followMember]
      exact realizes_followIn fun target _ => realizes_follow hload (.of_mem hp) target
  · exact .pure d

/-- A file is loaded as there is room for it below the limit. -/
theorem realizes_load {stack : List Location} {room : Nat}
    (hroom : settings.maxDepth - stack.length = room) (path : String) :
    Realizes fs settings stack (.call (.load path)) (loadFile fs settings room stack path) := by
  refine .call ?_
  rw [body, load]
  cases hplace : fs.locate path with
  | error cause =>
    rw [loadFile_of_locate_eq_error hplace]
    exact .fail _
  | ok place =>
    -- The state shows the stack that `loadFile` is given.
    refine .get fun σ hσ => ?_
    rw [hσ]
    by_cases hmem : place ∈ stack
    · rw [if_pos (List.contains_iff_mem.mpr hmem), loadFile_of_mem hplace hmem]
      exact .fail _
    · rw [if_neg fun h => hmem (List.contains_iff_mem.mp h)]
      by_cases hfull : settings.maxDepth ≤ stack.length
      · obtain rfl : room = 0 := by omega
        rw [if_pos hfull, loadFile_zero hplace hmem]
        exact .fail _
      · obtain ⟨room', hroom'⟩ : ∃ r, room = r + 1 := ⟨room - 1, by omega⟩
        -- The tree is loaded one file deeper, where there is less room.
        rw [if_neg hfull, hroom', loadFile_succ hplace hmem]
        refine (Realizes.done _).bind fun raw => .onStack hmem (by omega) ?_
        refine realizes_loadTree (fun file => ?_) raw _
        exact realizes_load (by simp only [List.length_cons]; omega) file
termination_by room

/-- A program that realizes an outcome comes to an end with the same files on the stack. -/
theorem Realizes.exists_runs {x : Program α} {o : Outcome α} {σ : Session}
    (h : Realizes fs settings σ.stack x o) (frames : Frames γ α) :
    ∃ result τ, Runs fs settings ⟨x, frames, σ⟩ ⟨.done result, frames, τ⟩ ∧ τ.stack = σ.stack :=
  ⟨_, _, (h γ frames σ.unresolved).runs, rfl⟩

end Program

/-! ## Calls -/

/-- What a loader is asked for. -/
inductive Call
  /-- The file that a path leads to. -/
  | file (path : String)
  /-- A tree that is at hand, as if it were in the file `origin`. -/
  | tree (raw : Value) (origin : String)

/-- The program of a call. -/
def Call.program : Call → Program Document
  | file path => .call (.load path)
  | tree raw origin => .call (.loadTree raw ((Path.parent? origin).getD ""))

/-- The outcome of a call. -/
def Call.outcome (fs : Files) (settings : Settings) : Call → Outcome Document
  | file path => load fs settings path
  | tree raw origin => ofTree fs settings raw origin

/-- With no file on the stack, a call is realized as if it were the only one. -/
theorem Call.realizes (call : Call) (fs : Files) (settings : Settings) :
    Program.Realizes fs settings [] call.program (call.outcome fs settings) := by
  have hload (path : String) :
      Program.Realizes fs settings [] (.call (.load path)) (load fs settings path) :=
    Program.realizes_load rfl path
  cases call with
  | file path => exact hload path
  | tree raw origin => exact Program.realizes_loadTree hload raw _

/-- A call with no file on the stack comes to an end, whatever the files refer to. It ends with
the outcome of the call, its reports come after those there were, and no file is on the stack
again; at no time is a file on the stack twice, or are there more than the limit. A file or a tree
that is loaded in the midst of this, with whatever is on the stack and is to be gone on with,
comes to an end with the stack as it was, be it with a document or with an error. -/
theorem call_ends (fs : Files) (settings : Settings) :
    (∀ (call : Call) (σ : Session), σ.stack = [] →
      Runs fs settings ⟨call.program, .nil, σ⟩
        ⟨.done (call.outcome fs settings).result, .nil,
          ⟨[], σ.unresolved ++ (call.outcome fs settings).unresolved⟩⟩ ∧
      ∀ c, Runs fs settings ⟨call.program, .nil, σ⟩ c →
        c.session.stack.Nodup ∧ c.session.stack.length ≤ settings.maxDepth) ∧
    ∀ (γ : Type) (frames : Frames γ Document) (σ : Session),
      (∀ path, ∃ result τ, Runs fs settings ⟨.call (.load path), frames, σ⟩
        ⟨.done result, frames, τ⟩ ∧ τ.stack = σ.stack) ∧
      ∀ raw directory, ∃ result τ, Runs fs settings ⟨.call (.loadTree raw directory), frames, σ⟩
        ⟨.done result, frames, τ⟩ ∧ τ.stack = σ.stack := by
  refine ⟨fun call σ hσ => ?_, fun γ frames σ => ?_⟩
  · obtain ⟨stack, unresolved⟩ := σ
    obtain rfl : stack = [] := hσ
    have hrun := call.realizes fs settings Document .nil unresolved
    refine ⟨hrun.runs, fun c hc => ?_⟩
    have hproper : Proper settings.maxDepth [] := ⟨.nil, Nat.zero_le _⟩
    have h := hrun.forall_runs rfl id hc hproper
    exact ⟨h.nodup, h.length_le⟩
  · have hload (path : String) :
        Program.Realizes fs settings σ.stack (.call (.load path))
          (loadFile fs settings (settings.maxDepth - σ.stack.length) σ.stack path) :=
      Program.realizes_load rfl path
    exact ⟨fun path => (hload path).exists_runs frames,
      fun raw directory => (Program.realizes_loadTree hload raw directory).exists_runs frames⟩

/-- Loading a workflow that runs itself comes to an end with an error, and no file is left on the
stack. -/
theorem call_ends_loopFile :
    Runs loopFile ⟨true, 1⟩ ⟨(Call.file "flow").program, .nil, ⟨[], []⟩⟩
      ⟨.done (.error (.referenceCycle "flow")), .nil,
        ⟨[], ((Call.file "flow").outcome loopFile ⟨true, 1⟩).unresolved⟩⟩ := by
  have hends := ((call_ends loopFile ⟨true, 1⟩).1 (.file "flow") ⟨[], []⟩ rfl).1
  have hresult : ((Call.file "flow").outcome loopFile ⟨true, 1⟩).result =
      .error (.referenceCycle "flow") := load_loopFile
  rwa [hresult, List.nil_append] at hends

end CanonicalCwl.Loader
