import CanonicalCwl.Proofs.Loader.Session

/-!
# The History of a Loader

A loader that is called again and again keeps one state for all of its calls. What a call finds
there is what the calls before it have left behind, those that failed included.

- `Loader.Call.ends_iff`: with no file on the stack, a call ends in exactly one way.
- `Loader.Calls.stack_eq_nil`: no file is on the stack between calls.
- `Loader.calls_independent`: after any calls, a call ends with the result that it has for a loader
  that was not called before, and what it reports then comes after all earlier reports.
-/

namespace CanonicalCwl.Loader

variable {fs : Files} {settings : Settings}

/-! ## How a run ends -/

/-- A program that is running comes to at most one end. -/
theorem Runs.end_unique {γ : Type} {c d e : Config γ} (hd : Runs fs settings c d)
    (hdend : step fs settings d = none) (he : Runs fs settings c e)
    (heend : step fs settings e = none) : d = e := by
  -- The induction is on one of the runs: the other one begins with the same step.
  induction hd using Relation.ReflTransGen.head_induction_on with
  | refl =>
    rcases he.cases_head with rfl | ⟨c', hstep, -⟩
    · rfl
    · rw [hdend] at hstep
      cases hstep
  | head hstep _ ih =>
    apply ih
    rcases he.cases_head with rfl | ⟨c', hstep', he⟩
    · rw [heend] at hstep
      cases hstep
    · obtain rfl := Option.some.inj (hstep.symm.trans hstep')
      exact he

/-! ## Calls to one loader -/

/-- The state of a loader that was not called. -/
def Session.fresh : Session := ⟨[], []⟩

/-- Called in the first state, a loader comes to an end with a result, in the second state. -/
def Call.Ends (fs : Files) (settings : Settings) (call : Call) (σ : Session)
    (result : Except LoadError Document) (τ : Session) : Prop :=
  Runs fs settings ⟨call.program, .nil, σ⟩ ⟨.done result, .nil, τ⟩

/-- A loader is called again and again, each time in the state that the call before has left. The
calls are listed with their results. -/
inductive Calls (fs : Files) (settings : Settings) :
    Session → List (Call × Except LoadError Document) → Session → Prop
  | nil (σ : Session) : Calls fs settings σ [] σ
  | cons {σ σ' τ : Session} {call : Call} {result : Except LoadError Document}
      {rest : List (Call × Except LoadError Document)} :
      call.Ends fs settings σ result σ' → Calls fs settings σ' rest τ →
        Calls fs settings σ ((call, result) :: rest) τ

variable {σ τ : Session} {answers : List (Call × Except LoadError Document)}

/-- With no file on the stack a call ends in exactly one way. No file is on the stack again, be
the result a document or an error. -/
theorem Call.ends_iff (call : Call) (hσ : σ.stack = []) {result : Except LoadError Document} :
    call.Ends fs settings σ result τ ↔
      result = (call.outcome fs settings).result ∧
        τ = ⟨[], σ.unresolved ++ (call.outcome fs settings).unresolved⟩ := by
  obtain ⟨stack, unresolved⟩ := σ
  obtain rfl : stack = [] := hσ
  have hruns := (call.realizes fs settings Document .nil unresolved).runs
  constructor
  · intro hends
    have heq := hends.end_unique rfl hruns rfl
    cases heq
    exact ⟨rfl, rfl⟩
  · rintro ⟨rfl, rfl⟩
    exact hruns

/-- No file is on the stack between calls. -/
theorem Calls.stack_eq_nil (h : Calls fs settings σ answers τ) (hσ : σ.stack = []) :
    τ.stack = [] := by
  induction h with
  | nil σ => exact hσ
  | @cons σ σ' τ call result rest hends _ ih =>
    apply ih
    rw [((call.ends_iff hσ).mp hends).2]

/-- Whatever a loader is called for, every call comes to an end. -/
theorem exists_calls (calls : List Call) (hσ : σ.stack = []) :
    ∃ answers τ, answers.map Prod.fst = calls ∧ Calls fs settings σ answers τ := by
  induction calls generalizing σ with
  | nil => exact ⟨[], σ, rfl, .nil σ⟩
  | cons call rest ih =>
    have hends : call.Ends fs settings σ (call.outcome fs settings).result
        ⟨[], σ.unresolved ++ (call.outcome fs settings).unresolved⟩ :=
      (call.ends_iff hσ).mpr ⟨rfl, rfl⟩
    obtain ⟨answers, τ, hcalls, hrest⟩ :=
      ih (σ := ⟨[], σ.unresolved ++ (call.outcome fs settings).unresolved⟩) rfl
    refine ⟨(call, (call.outcome fs settings).result) :: answers, τ, ?_, .cons hends hrest⟩
    rw [List.map_cons, hcalls]

/-- A loader can be called for anything in any order, and each call comes to an end. After any
calls, with whatever results, a call ends in exactly one way: with the result that it has for a
loader that was not called before, and what it reports there comes after what had been reported
before the call. -/
theorem calls_independent (fs : Files) (settings : Settings) :
    (∀ calls : List Call, ∃ answers τ, answers.map Prod.fst = calls ∧
      Calls fs settings .fresh answers τ) ∧
    ∀ answers σ, Calls fs settings .fresh answers σ → ∀ call : Call, ∃ result τ,
      call.Ends fs settings .fresh result τ ∧
      ∀ result' τ', call.Ends fs settings σ result' τ' ↔
        result' = result ∧ τ' = ⟨[], σ.unresolved ++ τ.unresolved⟩ := by
  constructor
  · intro calls
    exact exists_calls calls rfl
  · intro answers σ hcalls call
    refine ⟨_, _, (call.ends_iff rfl).mpr ⟨rfl, rfl⟩, ?_⟩
    intro result' τ'
    rw [call.ends_iff (hcalls.stack_eq_nil rfl)]
    rfl

/-- After a file was refused because it runs itself, a workflow with a path that leads nowhere is
loaded as if nothing had happened, and the path is reported. -/
theorem calls_independent_loopFile :
    ∃ σ, Calls loopFile ⟨true, 1⟩ .fresh [(.file "flow", .error (.referenceCycle "flow"))] σ ∧
      ∃ result τ,
        (Call.tree (ProcessOf.toCwl (.workflow (oneStep "main" (.path "#gone")))) "flow").Ends
          loopFile ⟨true, 1⟩ σ result τ ∧
        result = .ok (.process (.workflow (oneStep "main" (.path "#gone")))) ∧
        τ.unresolved = σ.unresolved ++ [⟨some "main", some "only", "#gone"⟩] := by
  -- The first call ends with the cycle.
  have hcycle : ((Call.file "flow").outcome loopFile ⟨true, 1⟩).result =
      .error (.referenceCycle "flow") := load_loopFile
  have hends := ((Call.file "flow").ends_iff (σ := .fresh) rfl).mpr ⟨hcycle.symm, rfl⟩
  refine ⟨_, .cons hends (.nil _), ?_⟩
  -- The second one goes as it would for a loader that was not called before.
  obtain ⟨result, τ, hfresh, hiff⟩ := (calls_independent loopFile ⟨true, 1⟩).2 _ _
    (.cons hends (.nil _))
    (.tree (ProcessOf.toCwl (.workflow (oneStep "main" (.path "#gone")))) "flow")
  obtain ⟨rfl, rfl⟩ := (Call.ends_iff _ rfl).mp hfresh
  exact ⟨_, _, (hiff _ _).mpr ⟨rfl, rfl⟩, rfl, rfl⟩

end CanonicalCwl.Loader
