import Mathlib.Data.List.Forall2
import Mathlib.Data.List.OfFn

/-!
# Results

When a computation that may fail gives a value, stated as equivalences: a sequence of two
steps gives a value exactly if both do, and a list of steps exactly if every one does. The error of
steps that are put together is that of the first one that fails.
-/

namespace CanonicalCwl.Result

variable {ε ε' α β γ : Type}

/-- Two steps give a value exactly if both do. -/
theorem bind_eq_ok_iff {x : Except ε α} {f : α → Except ε β} {b : β} :
    (x >>= f) = .ok b ↔ ∃ a, x = .ok a ∧ f a = .ok b := by
  cases x <;> simp [Bind.bind, Except.bind]

/-- Two steps fail if the first one does, or the second one after the first. -/
theorem bind_eq_error_iff {x : Except ε α} {f : α → Except ε β} {e : ε} :
    (x >>= f) = .error e ↔ x = .error e ∨ ∃ a, x = .ok a ∧ f a = .error e := by
  cases x <;> simp [Bind.bind, Except.bind]

/-- A value that is given back is the result. -/
theorem pure_eq_ok_iff {a b : α} : (pure a : Except ε α) = .ok b ↔ a = b := by
  simp [Pure.pure, Except.pure]

/-- A changed result is the change of a result. -/
theorem map_eq_ok_iff {x : Except ε α} {f : α → β} {b : β} :
    x.map f = .ok b ↔ ∃ a, x = .ok a ∧ f a = b := by
  cases x <;> simp [Except.map]

/-- A change of the error leaves a result as it is. -/
theorem mapError_eq_ok_iff {x : Except ε α} {f : ε → ε'} {a : α} :
    x.mapError f = .ok a ↔ x = .ok a := by
  cases x <;> simp [Except.mapError]

/-- A changed error is the change of an error. -/
theorem mapError_eq_error_iff {x : Except ε α} {f : ε → ε'} {e : ε'} :
    x.mapError f = .error e ↔ ∃ e', x = .error e' ∧ f e' = e := by
  cases x <;> simp [Except.mapError]

/-- A changed result leaves an error as it is. -/
theorem map_eq_error_iff {x : Except ε α} {f : α → β} {e : ε} :
    x.map f = .error e ↔ x = .error e := by
  cases x <;> simp [Except.map]

/-- The option of a computation holds its result. -/
theorem toOption_eq_some_iff {x : Except ε α} {a : α} : x.toOption = some a ↔ x = .ok a := by
  cases x <;> simp [Except.toOption]

/-- The option of a changed result is changed. -/
theorem toOption_map {x : Except ε α} {f : α → β} : (x.map f).toOption = x.toOption.map f := by
  cases x <;> rfl

/-- Computations with the same option give the same values. -/
theorem toOption_eq_toOption_iff {x y : Except ε α} :
    x.toOption = y.toOption ↔ ∀ a, x = .ok a ↔ y = .ok a := by
  rw [Option.ext_iff]
  simp only [toOption_eq_some_iff]

/-- Steps over a list give values exactly if every one does. -/
theorem mapM_eq_ok_iff {f : α → Except ε β} {as : List α} {bs : List β} :
    as.mapM f = .ok bs ↔ List.Forall₂ (fun a b => f a = .ok b) as bs := by
  induction as generalizing bs with
  | nil => cases bs <;> simp [pure_eq_ok_iff]
  | cons a as ih =>
    rw [List.mapM_cons]
    simp only [bind_eq_ok_iff, pure_eq_ok_iff, List.forall₂_cons_left_iff, ih]
    constructor
    · rintro ⟨b, hb, bs, hbs, rfl⟩
      exact ⟨b, bs, hb, hbs, rfl⟩
    · rintro ⟨b, bs, hb, hbs, rfl⟩
      exact ⟨b, hb, bs, hbs, rfl⟩

/-- Steps over a list give values if every one does. -/
theorem exists_mapM_eq_ok {f : α → Except ε β} {as : List α} (h : ∀ a ∈ as, ∃ b, f a = .ok b) :
    ∃ bs, as.mapM f = .ok bs := by
  induction as with
  | nil => exact ⟨[], rfl⟩
  | cons a as ih =>
    obtain ⟨b, hb⟩ := h a (List.mem_cons_self ..)
    obtain ⟨bs, hbs⟩ := ih fun a ha => h a (List.mem_cons_of_mem _ ha)
    exact ⟨b :: bs, by rw [List.mapM_cons, hb, hbs]; rfl⟩

/-- Steps over a list give the values that other steps give for each member. -/
theorem mapM_eq_ok_of_forall_mem {f g : α → Except ε β} {as : List α} {bs : List β}
    (h : ∀ a ∈ as, ∀ b, f a = .ok b → g a = .ok b) (hf : as.mapM f = .ok bs) :
    as.mapM g = .ok bs := by
  induction as generalizing bs with
  | nil => exact hf
  | cons a as ih =>
    rw [List.mapM_cons] at hf ⊢
    simp only [bind_eq_ok_iff, pure_eq_ok_iff] at hf ⊢
    obtain ⟨b, hb, bs, hbs, rfl⟩ := hf
    exact ⟨b, h a (List.mem_cons_self ..) b hb, bs,
      ih (fun a ha => h a (List.mem_cons_of_mem _ ha)) hbs, rfl⟩

/-- Steps over a list fail as the first one does that fails. -/
theorem mapM_eq_error {f : α → Except ε β} {before : List α} {a : α} {e : ε}
    (hbefore : ∀ b ∈ before, ∃ c, f b = .ok c) (h : f a = .error e) (after : List α) :
    (before ++ a :: after).mapM f = .error e := by
  obtain ⟨bs, hbs⟩ := exists_mapM_eq_ok hbefore
  rw [List.mapM_append, hbs, List.mapM_cons, h]
  rfl

/-- A member may be replaced by one that belongs to the same others. -/
theorem forall₂_replace_iff {R : α → β → Prop} {a a' : α} (h : ∀ b, R a b ↔ R a' b)
    (before after : List α) {bs : List β} :
    List.Forall₂ R (before ++ a :: after) bs ↔ List.Forall₂ R (before ++ a' :: after) bs := by
  induction before generalizing bs with
  | nil => simp only [List.nil_append, List.forall₂_cons_left_iff, h]
  | cons first before ih => simp only [List.cons_append, List.forall₂_cons_left_iff, ih]

/-- Members that belong to changed others. -/
theorem exists_forall₂_map_iff {R : α → β → Prop} {g : β → γ} {as : List α} {cs : List γ} :
    (∃ bs, List.Forall₂ R as bs ∧ bs.map g = cs) ↔
      List.Forall₂ (fun a c => ∃ b, R a b ∧ g b = c) as cs := by
  induction as generalizing cs with
  | nil => simp [eq_comm]
  | cons a as ih =>
    simp only [List.forall₂_cons_left_iff, ← ih]
    constructor
    · rintro ⟨_, ⟨b, bs, hb, hbs, rfl⟩, rfl⟩
      exact ⟨g b, bs.map g, ⟨b, hb, rfl⟩, ⟨bs, hbs, rfl⟩, rfl⟩
    · rintro ⟨_, _, ⟨b, hb, rfl⟩, ⟨bs, hbs, rfl⟩, rfl⟩
      exact ⟨b :: bs, ⟨b, bs, hb, hbs, rfl⟩, rfl⟩

/-- What belongs to the members of a list, place by place. -/
theorem forall₂_ofFn_left_iff {R : α → β → Prop} {n : ℕ} {f : Fin n → α} {bs : List β} :
    List.Forall₂ R (List.ofFn f) bs ↔ ∃ g : Fin n → β, bs = List.ofFn g ∧ ∀ i, R (f i) (g i) := by
  constructor
  · intro h
    have hlength : n = bs.length := by simpa using h.length_eq
    subst hlength
    refine ⟨bs.get, (List.ofFn_get bs).symm, ?_⟩
    intro i
    simpa using h.get (i := i) (by simp) i.isLt
  · rintro ⟨g, rfl, h⟩
    rw [List.forall₂_iff_get]
    refine ⟨by simp, ?_⟩
    intro i hi hi'
    simpa using h ⟨i, by simpa using hi⟩

/-- A pass over a list succeeds if it does so place by place. -/
theorem mapM_ofFn_eq_ok_iff {n : ℕ} {f : α → Except ε β} {as : Fin n → α} {bs : List β} :
    (List.ofFn as).mapM f = .ok bs ↔
      ∃ bs' : Fin n → β, bs = List.ofFn bs' ∧ ∀ i, f (as i) = .ok (bs' i) := by
  rw [mapM_eq_ok_iff, forall₂_ofFn_left_iff]

/-- Among the results of steps over a list, each belongs to a member. -/
theorem exists_of_mem_right {R : α → β → Prop} {as : List α} {bs : List β}
    (h : List.Forall₂ R as bs) {b : β} (hb : b ∈ bs) : ∃ a ∈ as, R a b := by
  obtain ⟨i, hi, rfl⟩ := List.getElem_of_mem hb
  have hi' : i < as.length := h.length_eq ▸ hi
  exact ⟨as[i], List.getElem_mem hi', h.get hi' hi⟩

/-- What belongs to the members of a list by one relation or by another is the same if it is the
same for each member. -/
theorem forall₂_unique {R R' : α → β → Prop} {as : List α} {bs bs' : List β}
    (h : ∀ a ∈ as, ∀ b b', R a b → R' a b' → b = b') (hbs : List.Forall₂ R as bs)
    (hbs' : List.Forall₂ R' as bs') : bs = bs' := by
  induction hbs generalizing bs' with
  | nil => exact (List.forall₂_nil_left_iff.mp hbs').symm
  | cons hb _ ih =>
    obtain ⟨b', rest, hb', hrest, rfl⟩ := List.forall₂_cons_left_iff.mp hbs'
    rw [h _ (List.mem_cons_self ..) _ _ hb hb',
      ih (fun a ha => h a (List.mem_cons_of_mem _ ha)) hrest]

/-- What belongs to a member of a list stands at its place. -/
theorem exists_getElem?_right {R : α → β → Prop} {as : List α} {bs : List β}
    (h : List.Forall₂ R as bs) {i : ℕ} {a : α} (ha : as[i]? = some a) :
    ∃ b, bs[i]? = some b ∧ R a b := by
  induction h generalizing i with
  | nil => simp at ha
  | @cons a' b as bs hb _ ih =>
    cases i with
    | zero =>
      obtain rfl : a' = a := by simpa using ha
      exact ⟨b, rfl, hb⟩
    | succ i => exact ih (by simpa using ha)

/-- A list stays as it is if a rewrite keeps its items. -/
theorem map_eq_self {f : α → α} {as : List α} (h : ∀ a ∈ as, f a = a) : as.map f = as := by
  rw [List.map_congr_left h, List.map_id']

/-! ## Errors -/

/-- The error of a computation that fails. -/
def error? : Except ε α → Option ε
  | .ok _ => none
  | .error e => some e

@[simp] theorem error?_ok (a : α) : error? (.ok a : Except ε α) = none := rfl

@[simp] theorem error?_error (e : ε) : error? (.error e : Except ε α) = some e := rfl

/-- A computation has the error that it fails with. -/
theorem error?_eq_some_iff {x : Except ε α} {e : ε} : error? x = some e ↔ x = .error e := by
  cases x <;> simp

/-- A computation has no error exactly if it gives a value. -/
theorem error?_eq_none_iff {x : Except ε α} : error? x = none ↔ ∃ a, x = .ok a := by
  cases x <;> simp

/-- A change of the result leaves the error as it is. -/
@[simp] theorem error?_bind_pure (x : Except ε α) (f : α → β) :
    error? (x >>= fun a => pure (f a)) = error? x := by
  cases x <;> rfl

/-- If the error of the second step does not depend on the value of the first one, then it comes
after that of the first one. -/
theorem error?_bind {x : Except ε α} {f : α → Except ε β} {e : Option ε}
    (h : ∀ a, error? (f a) = e) : error? (x >>= f) = (error? x).or e := by
  cases x with
  | ok a => exact h a
  | error e => rfl

/-- Steps over a list fail as the first one does that fails. -/
theorem error?_mapM (f : α → Except ε β) (as : List α) :
    error? (as.mapM f) = as.findSome? fun a => error? (f a) := by
  induction as with
  | nil => rfl
  | cons a as ih =>
    rw [List.mapM_cons, List.findSome?_cons, ← ih, error?_bind fun b => error?_bind_pure _ _]
    cases error? (f a) <;> rfl

end CanonicalCwl.Result
