import CanonicalCwl.Loader.Outcome
import Mathlib.Data.List.Forall2

/-!
# When Loading Succeeds

An outcome has a result or an error, whatever it reports. The lemmas tell when outcomes that
are put together have a result, and which.

- `Outcome.result_bind_eq_ok_iff`: two outcomes in a row have a result exactly if both do.
- `Outcome.result_mapM_eq_ok_iff`: outcomes over a list have results exactly if every one does.
- `Outcome.SameUnless`: two outcomes are the same, unless the first one ended with some error.
-/

namespace CanonicalCwl.Outcome

variable {α β : Type}

/-- The outcome has a result. -/
def Succeeds (x : Outcome α) : Prop := ∃ a, x.result = .ok a

@[simp] theorem result_ofExcept (r : Except LoadError α) : (ofExcept r).result = r := rfl

@[simp] theorem result_fail (e : LoadError) : (fail e : Outcome α).result = .error e := rfl

/-- A result without reports is gone on with as it is. -/
theorem ofExcept_ok_bind (a : α) (f : α → Outcome β) : ofExcept (.ok a) >>= f = f a :=
  pure_bind a f

/-- A value that is given back is the result. -/
theorem result_pure_eq_ok_iff {a b : α} : (Pure.pure a : Outcome α).result = .ok b ↔ a = b := by
  simp [Pure.pure, pure]

/-- Two outcomes in a row have a result exactly if both do. -/
theorem result_bind_eq_ok_iff {x : Outcome α} {f : α → Outcome β} {b : β} :
    (x >>= f).result = .ok b ↔ ∃ a, x.result = .ok a ∧ (f a).result = .ok b := by
  show (bind x f).result = .ok b ↔ _
  unfold bind
  -- An error ends it, and what is reported does not matter.
  cases x.result <;> simp

/-- Outcomes over a list have results exactly if every one does. -/
theorem result_mapM_eq_ok_iff {f : α → Outcome β} {as : List α} {bs : List β} :
    (as.mapM f).result = .ok bs ↔ List.Forall₂ (fun a b => (f a).result = .ok b) as bs := by
  induction as generalizing bs with
  | nil => cases bs <;> simp [result_pure_eq_ok_iff]
  | cons a as ih =>
    rw [List.mapM_cons]
    simp only [result_bind_eq_ok_iff, result_pure_eq_ok_iff, List.forall₂_cons_left_iff, ih]
    constructor
    · rintro ⟨b, hb, bs, hbs, rfl⟩
      exact ⟨b, bs, hb, hbs, rfl⟩
    · rintro ⟨b, bs, hb, hbs, rfl⟩
      exact ⟨b, hb, bs, hbs, rfl⟩

/-- A value that is given back is a result. -/
theorem succeeds_pure (a : α) : (Pure.pure a : Outcome α).Succeeds := ⟨a, rfl⟩

/-- Two outcomes in a row succeed exactly if the first has a result with which the second
succeeds. -/
theorem succeeds_bind_iff {x : Outcome α} {f : α → Outcome β} :
    (x >>= f).Succeeds ↔ ∃ a, x.result = .ok a ∧ (f a).Succeeds := by
  constructor
  · rintro ⟨b, hb⟩
    obtain ⟨a, ha, hb⟩ := result_bind_eq_ok_iff.mp hb
    exact ⟨a, ha, b, hb⟩
  · rintro ⟨a, ha, b, hb⟩
    exact ⟨b, result_bind_eq_ok_iff.mpr ⟨a, ha, hb⟩⟩

/-- Going on with a value in a way that always succeeds changes nothing. -/
theorem succeeds_bind_iff_left {x : Outcome α} {f : α → Outcome β} (h : ∀ a, (f a).Succeeds) :
    (x >>= f).Succeeds ↔ x.Succeeds := by
  rw [succeeds_bind_iff]
  exact ⟨fun ⟨a, ha, _⟩ => ⟨a, ha⟩, fun ⟨a, ha⟩ => ⟨a, ha, h a⟩⟩

/-- Outcomes over a list succeed exactly if every one does. -/
theorem succeeds_mapM_iff {f : α → Outcome β} {as : List α} :
    (as.mapM f).Succeeds ↔ ∀ a ∈ as, (f a).Succeeds := by
  induction as with
  | nil => simp [succeeds_pure]
  | cons a as ih =>
    rw [List.mapM_cons, succeeds_bind_iff, List.forall_mem_cons, ← ih]
    simp only [succeeds_bind_iff_left fun _ => succeeds_pure _]
    exact ⟨fun ⟨b, hb, hrest⟩ => ⟨⟨b, hb⟩, hrest⟩, fun ⟨⟨b, hb⟩, hrest⟩ => ⟨b, hb, hrest⟩⟩

/-! ## Reports -/

/-- Going on with a result, the reports follow each other. -/
theorem bind_eq_of_result_eq_ok {x : Outcome α} {a : α} (h : x.result = .ok a)
    (f : α → Outcome β) : x >>= f = ⟨(f a).result, x.unresolved ++ (f a).unresolved⟩ := by
  show bind x f = _
  unfold bind
  rw [h]

/-- After an error nothing is gone on with, and what was reported stands. -/
theorem bind_eq_of_result_eq_error {x : Outcome α} {e : LoadError} (h : x.result = .error e)
    (f : α → Outcome β) : x >>= f = ⟨.error e, x.unresolved⟩ := by
  show bind x f = _
  unfold bind
  rw [h]

/-- What was reported stands when it is gone on with. -/
theorem unresolved_subset_bind (x : Outcome α) (f : α → Outcome β) :
    x.unresolved ⊆ (x >>= f).unresolved := by
  match h : x.result with
  | .ok a =>
    rw [bind_eq_of_result_eq_ok h]
    exact List.subset_append_left ..
  | .error e =>
    rw [bind_eq_of_result_eq_error h]
    exact List.Subset.refl _

/-- A change of the result leaves what is reported as it is. -/
theorem unresolved_bind_pure (x : Outcome α) (f : α → β) :
    (x >>= fun a => Pure.pure (f a)).unresolved = x.unresolved := by
  match h : x.result with
  | .ok a =>
    rw [bind_eq_of_result_eq_ok h]
    exact List.append_nil _
  | .error e => rw [bind_eq_of_result_eq_error h]

/-- What is reported over a list, if every one has a result. -/
theorem unresolved_mapM {f : α → Outcome β} {as : List α} {bs : List β}
    (h : (as.mapM f).result = .ok bs) :
    (as.mapM f).unresolved = as.flatMap fun a => (f a).unresolved := by
  induction as generalizing bs with
  | nil => rfl
  | cons a as ih =>
    rw [List.mapM_cons, result_bind_eq_ok_iff] at h
    obtain ⟨b, hb, h⟩ := h
    obtain ⟨rest, hrest, -⟩ := result_bind_eq_ok_iff.mp h
    rw [List.mapM_cons, bind_eq_of_result_eq_ok hb, unresolved_bind_pure, List.flatMap_cons,
      ih hrest]

/-! ## Outcomes that are the same up to some errors -/

/-- The second outcome is the first one, unless that ended with an error of some kind. -/
def SameUnless (stops : LoadError → Prop) (x x' : Outcome α) : Prop :=
  x' = x ∨ ∃ e, stops e ∧ x.result = .error e

namespace SameUnless

variable {stops : LoadError → Prop} {x x' : Outcome α}

/-- An outcome is the same as itself. -/
theorem refl (x : Outcome α) : SameUnless stops x x := .inl rfl

/-- Without an error of the kind, the outcomes are the same. -/
theorem eq (h : SameUnless stops x x') (hno : ∀ e, stops e → x.result ≠ .error e) : x' = x := by
  rcases h with h | ⟨e, he, herror⟩
  · exact h
  · exact absurd herror (hno e he)

/-- Outcomes in a row are the same if the first ones are, and then what is gone on with. -/
theorem bind (hx : SameUnless stops x x') {f f' : α → Outcome β}
    (hf : ∀ a, x.result = .ok a → SameUnless stops (f a) (f' a)) :
    SameUnless stops (x >>= f) (x' >>= f') := by
  rcases hx with rfl | ⟨e, he, herror⟩
  · match hresult : x'.result with
    | .error e =>
      left
      rw [bind_eq_of_result_eq_error hresult, bind_eq_of_result_eq_error hresult]
    | .ok a =>
      rw [bind_eq_of_result_eq_ok hresult, bind_eq_of_result_eq_ok hresult]
      rcases hf a hresult with heq | ⟨e, he, herror⟩
      · exact .inl (by rw [heq])
      · exact .inr ⟨e, he, herror⟩
  · rw [bind_eq_of_result_eq_error herror]
    exact .inr ⟨e, he, rfl⟩

/-- Outcomes over a list are the same if each is. -/
theorem mapM {f f' : α → Outcome β} {as : List α}
    (h : ∀ a ∈ as, SameUnless stops (f a) (f' a)) :
    SameUnless stops (as.mapM f) (as.mapM f') := by
  induction as with
  | nil => exact refl _
  | cons a as ih =>
    obtain ⟨ha, has⟩ := List.forall_mem_cons.mp h
    rw [List.mapM_cons, List.mapM_cons]
    exact ha.bind fun _ _ => (ih has).bind fun _ _ => refl _

end SameUnless

end CanonicalCwl.Outcome
