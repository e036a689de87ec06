import CanonicalCwl.LoadError

/-!
# Outcomes of Loading

Loading a document gives the document or an error, and along the way it reports the references
inside bundles that it leaves dangling. A report stands even if loading fails later.
-/

namespace CanonicalCwl

/-- A reference inside a bundle that is left dangling. -/
structure UnresolvedReference where
  /-- The id of the workflow that the step is in. -/
  workflow : Option String
  step : Option String
  reference : String
  deriving DecidableEq

/-- The words for a dangling reference. -/
def UnresolvedReference.message (r : UnresolvedReference) : String :=
  "step " ++ r.step.getD "<anonymous>" ++ " of " ++ r.workflow.getD "<anonymous>" ++ " runs " ++
    r.reference ++ " which is not in the bundle"

/-- What loading gives, and the dangling references that it reports, in order. -/
structure Outcome (α : Type) where
  result : Except LoadError α
  unresolved : List UnresolvedReference

namespace Outcome

variable {α β : Type}

/-- A result without reports. -/
def ofExcept (r : Except LoadError α) : Outcome α := ⟨r, []⟩

/-- Give a value. -/
def pure (a : α) : Outcome α := ofExcept (.ok a)

/-- Fail. -/
def fail (e : LoadError) : Outcome α := ofExcept (.error e)

/-- Report a dangling reference. -/
def report (r : UnresolvedReference) : Outcome Unit := ⟨.ok (), [r]⟩

/-- Go on with a value; the reports follow each other. -/
def bind (x : Outcome α) (f : α → Outcome β) : Outcome β :=
  match x.result with
  | .ok a => ⟨(f a).result, x.unresolved ++ (f a).unresolved⟩
  | .error e => ⟨.error e, x.unresolved⟩

instance : Monad Outcome where
  pure := pure
  bind := bind

instance : LawfulMonad Outcome := LawfulMonad.mk' Outcome
  (by
    rintro α ⟨r, u⟩
    cases r <;> simp [Functor.map, bind, pure, ofExcept])
  (by
    intro α β x f
    simp [Bind.bind, Pure.pure, bind, pure, ofExcept])
  (by
    rintro α β γ ⟨r, u⟩ f g
    cases r with
    | error e => simp [Bind.bind, bind]
    | ok a =>
      simp only [Bind.bind, bind]
      cases (f a).result <;> simp [List.append_assoc])

end Outcome

end CanonicalCwl
