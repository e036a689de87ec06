import CanonicalCwl.Shape.Field
import Mathlib.Data.List.Nodup

/-!
# Entries Put Together

How lookups, rewrites and erasures act on entries that are put together from the pieces of a
record: a piece of an optional field is empty or has one entry, and so has the piece of a list
that is not written when empty.

- `get?_append`: a lookup looks at the pieces in order.
- `get?_erase`: an erasure hides its own key and no other.
- `mapWithKey_optional`, `mapWithKey_listed`: a rewrite of a piece is a piece again.
-/

namespace CanonicalCwl.Entries

variable {α β γ : Type}

/-! ## Lookups -/

/-- A lookup looks at the pieces in order. -/
@[simp] theorem get?_append (a b : Entries α) (key : String) :
    get? (a ++ b) key = (get? a key).or (get? b key) := by
  induction a with
  | nil => simp
  | cons e rest ih =>
    obtain ⟨k, v⟩ := e
    by_cases h : k = key
    · simp [get?_cons, h]
    · simp [get?_cons, h, ih]

/-- What a lookup finds is an entry. -/
theorem mem_of_get? {es : Entries α} {key : String} {v : α} (h : get? es key = some v) :
    (key, v) ∈ es := by
  induction es with
  | nil => simp at h
  | cons e rest ih =>
    obtain ⟨k, w⟩ := e
    rw [get?_cons] at h
    split at h
    · next hk =>
      cases h
      simp [hk]
    · exact List.mem_cons_of_mem _ (ih h)

/-- A lookup finds nothing exactly if the key is absent. -/
theorem get?_eq_none_iff {es : Entries α} {key : String} :
    get? es key = none ↔ key ∉ keys es := by
  induction es with
  | nil => simp [keys]
  | cons e rest ih =>
    obtain ⟨k, v⟩ := e
    by_cases h : k = key
    · simp [get?_cons, keys, h]
    · have hne : key ≠ k := fun hk => h hk.symm
      simp only [get?_cons, h, if_false, ih]
      simp [keys, hne]

@[simp] theorem erase_nil (key : String) : erase ([] : Entries α) key = [] := rfl

/-- An erasure decides entry by entry. -/
@[simp] theorem erase_cons (k : String) (v : α) (rest : Entries α) (key : String) :
    erase ((k, v) :: rest) key = if k = key then erase rest key else (k, v) :: erase rest key := by
  by_cases h : k = key <;> simp [erase, h]

/-- An erasure hides its own key and no other. -/
theorem get?_erase (es : Entries α) (key other : String) :
    get? (erase es key) other = if key = other then none else get? es other := by
  induction es with
  | nil => simp [erase]
  | cons e rest ih =>
    obtain ⟨k, v⟩ := e
    rw [erase_cons, get?_cons]
    -- The first entry is erased or kept; if it is kept, it may be the one that is looked for.
    by_cases hk : k = key
    · subst hk
      rw [if_pos rfl, ih]
      by_cases ho : k = other <;> simp [ho]
    · rw [if_neg hk, get?_cons, ih]
      by_cases ho : k = other
      · subst ho
        simp [Ne.symm hk]
      · simp [ho]

/-- Something is found under a key exactly if it is present. -/
theorem isSome_get?_iff {es : Entries α} {key : String} :
    (get? es key).isSome ↔ key ∈ keys es := by
  rw [Option.isSome_iff_ne_none, Ne, get?_eq_none_iff, Decidable.not_not]

@[simp] theorem keys_append (a b : Entries α) : keys (a ++ b) = keys a ++ keys b :=
  List.map_append

/-- A key that is absent is inserted at the end. -/
theorem insert_of_notMem {es : Entries α} {key : String} (value : α) (h : key ∉ keys es) :
    insert es key value = es ++ [(key, value)] := by
  induction es with
  | nil => rfl
  | cons e rest ih =>
    obtain ⟨k, v⟩ := e
    simp only [keys, List.map_cons, List.mem_cons, not_or] at h
    rw [insert, if_neg (Ne.symm h.1), ih h.2]
    rfl

/-- The entries after an insertion are the inserted one and entries from before. -/
theorem mem_of_mem_insert {es : Entries α} {key : String} {value : α} {e : String × α}
    (h : e ∈ insert es key value) : e ∈ es ∨ e = (key, value) := by
  induction es with
  | nil => exact .inr (List.mem_singleton.mp h)
  | cons first rest ih =>
    obtain ⟨k, v⟩ := first
    rw [insert] at h
    split at h
    · next hk =>
      rcases List.mem_cons.mp h with rfl | h
      · exact .inr (by rw [hk])
      · exact .inl (List.mem_cons_of_mem _ h)
    · rcases List.mem_cons.mp h with rfl | h
      · exact .inl (List.mem_cons_self ..)
      · exact (ih h).imp_left (List.mem_cons_of_mem _)

/-- The keys after an insertion are the inserted one and those from before. -/
theorem mem_keys_insert {es : Entries α} {key : String} {value : α} {other : String} :
    other ∈ keys (insert es key value) ↔ other = key ∨ other ∈ keys es := by
  rw [← isSome_get?_iff, ← isSome_get?_iff, get?_insert]
  by_cases h : key = other
  · simp [h]
  · simp [h, Ne.symm h]

/-- No key occurs twice after an insertion if none did before. -/
theorem distinct_insert {es : Entries α} (h : Distinct es) (key : String) (value : α) :
    Distinct (insert es key value) := by
  rw [Distinct, keys_insert]
  split
  · exact h
  · next hkey =>
    rw [List.nodup_append]
    refine ⟨h, by simp, fun k hk k' hk' => ?_⟩
    obtain rfl := List.mem_singleton.mp hk'
    exact fun heq => hkey (heq ▸ hk)

/-! ## Entries whose keys are distinct -/

/-- With distinct keys, every entry is found. -/
theorem mem_iff_get? {es : Entries α} (h : Distinct es) {key : String} {v : α} :
    (key, v) ∈ es ↔ get? es key = some v := by
  refine ⟨fun hmem => ?_, mem_of_get?⟩
  induction es with
  | nil => simp at hmem
  | cons e rest ih =>
    obtain ⟨k, w⟩ := e
    obtain ⟨hk, hrest⟩ := List.nodup_cons.mp h
    rw [get?_cons]
    rcases List.mem_cons.mp hmem with heq | hmem
    · obtain ⟨rfl, rfl⟩ := Prod.mk.inj heq
      rw [if_pos rfl]
    · have hne : k ≠ key := by
        rintro rfl
        exact hk (List.mem_map.mpr ⟨_, hmem, rfl⟩)
      rw [if_neg hne, ih hrest hmem]

/-- Entries with distinct keys that give the same to every lookup differ in their order alone. -/
theorem perm_of_get?_eq {es fs : Entries α} (hes : Distinct es) (hfs : Distinct fs)
    (h : ∀ key, get? es key = get? fs key) : es.Perm fs := by
  refine (List.perm_ext_iff_of_nodup (.of_map _ hes) (.of_map _ hfs)).mpr fun e => ?_
  obtain ⟨key, v⟩ := e
  rw [mem_iff_get? hes, mem_iff_get? hfs, h]

/-- With distinct keys, a lookup does not depend on the order of the entries. -/
theorem get?_perm {es fs : Entries α} (hperm : es.Perm fs) (h : Distinct es) (key : String) :
    get? es key = get? fs key := by
  have hfs : Distinct fs := (hperm.map _).nodup_iff.mp h
  apply Option.ext
  intro v
  rw [← mem_iff_get? h, ← mem_iff_get? hfs, hperm.mem_iff]

/-- Where only the entries of one key count, and no key occurs twice, what is under the key
decides. -/
theorem findSome?_eq_bind_get? {es : Entries α} (h : Distinct es) (key : String)
    (f : α → Option β) :
    (es.findSome? fun e => if e.1 = key then f e.2 else none) = (get? es key).bind f := by
  induction es with
  | nil => rfl
  | cons e es ih =>
    obtain ⟨k, v⟩ := e
    obtain ⟨hk, hes⟩ := List.nodup_cons.mp h
    rw [List.findSome?_cons, get?_cons, ih hes]
    split_ifs with hkey
    · subst hkey
      rw [get?_eq_none_iff.mpr hk]
      cases hf : f v <;> simp [hf]
    · rfl

/-- Leaving out entries keeps the others in order. -/
theorem keys_filterMap_sublist (f : String → α → Option β) (es : Entries α) :
    (keys (es.filterMap fun e => (f e.1 e.2).map (e.1, ·))).Sublist (keys es) := by
  induction es with
  | nil => exact .slnil
  | cons e rest ih =>
    obtain ⟨k, v⟩ := e
    rw [List.filterMap_cons]
    cases hf : f k v with
    | none => exact ih.cons k
    | some w => exact ih.cons_cons k

/-- A lookup in entries that are left out or rewritten one by one. -/
theorem get?_filterMap {es : Entries α} (h : Distinct es) (f : String → α → Option β)
    (key : String) : get? (es.filterMap fun e => (f e.1 e.2).map (e.1, ·)) key =
      (get? es key).bind (f key) := by
  induction es with
  | nil => rfl
  | cons e rest ih =>
    obtain ⟨k, v⟩ := e
    obtain ⟨hk, hrest⟩ := List.nodup_cons.mp h
    rw [List.filterMap_cons, get?_cons]
    by_cases heq : k = key
    · subst heq
      -- The key does not occur again among the other entries.
      have hnone : get? rest k = none := get?_eq_none_iff.mpr hk
      cases hf : f k v with
      | none => simp [ih hrest, hnone, hf]
      | some w => simp [get?_cons, hf]
    · cases hf : f k v with
      | none => simp [ih hrest, heq]
      | some w => simp [get?_cons, ih hrest, heq]

/-! ## Rewrites -/

/-- Two rewrites in a row are one. -/
theorem mapWithKey_mapWithKey (f : String → β → γ) (g : String → α → β) (es : Entries α) :
    mapWithKey f (mapWithKey g es) = mapWithKey (fun k v => f k (g k v)) es := by
  simp [mapWithKey, Function.comp_def]

@[simp] theorem mapWithKey_append (f : String → α → β) (a b : Entries α) :
    mapWithKey f (a ++ b) = mapWithKey f a ++ mapWithKey f b := by
  simp [mapWithKey]

@[simp] theorem mapWithKey_cons (f : String → α → β) (k : String) (v : α) (rest : Entries α) :
    mapWithKey f ((k, v) :: rest) = (k, f k v) :: mapWithKey f rest := rfl

@[simp] theorem mapWithKey_nil (f : String → α → β) : mapWithKey f ([] : Entries α) = [] := rfl

/-- Exactly the rewrites that change no entry change nothing. -/
theorem mapWithKey_eq_self_iff {f : String → α → α} {es : Entries α} :
    mapWithKey f es = es ↔ ∀ e ∈ es, f e.1 e.2 = e.2 := by
  induction es with
  | nil => simp
  | cons e rest ih =>
    obtain ⟨k, v⟩ := e
    rw [mapWithKey_cons, List.cons_eq_cons, ih, List.forall_mem_cons, Prod.mk.injEq,
      and_iff_right rfl]

/-- A rewrite that changes no entry changes nothing. -/
theorem mapWithKey_eq_self {f : String → α → α} {es : Entries α}
    (h : ∀ k v, (k, v) ∈ es → f k v = v) : mapWithKey f es = es :=
  mapWithKey_eq_self_iff.mpr fun e he => h e.1 e.2 he

/-- The entries of a rewrite are rewritten entries. -/
theorem mem_mapWithKey {f : String → α → β} {es : Entries α} {key : String} {v : β} :
    (key, v) ∈ mapWithKey f es ↔ ∃ w, (key, w) ∈ es ∧ f key w = v := by
  simp only [mapWithKey, List.mem_map, Prod.exists, Prod.mk.injEq]
  constructor
  · rintro ⟨k, w, hmem, rfl, rfl⟩
    exact ⟨w, hmem, rfl⟩
  · rintro ⟨w, hmem, rfl⟩
    exact ⟨key, w, hmem, rfl, rfl⟩

/-- It does not matter whether entries are erased before or after a rewrite. -/
theorem erase_mapWithKey (f : String → α → β) (es : Entries α) (key : String) :
    erase (mapWithKey f es) key = mapWithKey f (erase es key) := by
  simp [erase, mapWithKey, List.filter_map, Function.comp_def]

/-- An erasure keeps the entries of the other keys. -/
theorem mem_erase {es : Entries α} {key other : String} {v : α} :
    (other, v) ∈ erase es key ↔ (other, v) ∈ es ∧ other ≠ key := by
  simp [erase]

/-- An erasure leaves no key twice if none was. -/
theorem distinct_erase {es : Entries α} (h : Distinct es) (key : String) :
    Distinct (erase es key) :=
  h.sublist ((List.filter_sublist).map _)

/-! ## Pieces of a record -/

@[simp] theorem get?_optional (key : String) (v : Option Value) (other : String) :
    get? (optional key v) other = if key = other then v else none := by
  cases v <;> simp [optional, get?_cons]

@[simp] theorem mem_optional {key other : String} {v : Option Value} {w : Value} :
    (other, w) ∈ optional key v ↔ other = key ∧ v = some w := by
  cases v <;> simp [optional, eq_comm]

/-- The sequence of some items, if there are any. -/
def nonempty? (items : List Value) : Option Value :=
  if items.isEmpty then none else some (.sequence items)

/-- A list that is not written when empty is an optional field. -/
theorem listed_eq_optional (key : String) (items : List Value) :
    listed key items = optional key (nonempty? items) := by
  cases items <;> rfl

@[simp] theorem get?_listed (key : String) (items : List Value) (other : String) :
    get? (listed key items) other = if key = other then nonempty? items else none := by
  rw [listed_eq_optional, get?_optional]

@[simp] theorem mem_listed {key other : String} {items : List Value} {w : Value} :
    (other, w) ∈ listed key items ↔ other = key ∧ nonempty? items = some w := by
  rw [listed_eq_optional, mem_optional]

@[simp] theorem erase_append (a b : Entries α) (key : String) :
    erase (a ++ b) key = erase a key ++ erase b key := by
  simp [erase]

@[simp] theorem erase_optional (key : String) (v : Option Value) (other : String) :
    erase (optional key v) other = if key = other then [] else optional key v := by
  cases v with
  | none => simp [optional, erase]
  | some v => by_cases h : key = other <;> simp [optional, erase, h]

@[simp] theorem erase_listed (key : String) (items : List Value) (other : String) :
    erase (listed key items) other = if key = other then [] else listed key items := by
  rw [listed_eq_optional, erase_optional]

@[simp] theorem mapWithKey_optional (f : String → Value → Value) (key : String)
    (v : Option Value) : mapWithKey f (optional key v) = optional key (v.map (f key)) := by
  cases v <;> rfl

/-- A rewrite that keeps the values under the key of a piece keeps the piece. -/
theorem mapWithKey_optional_eq_self {f : String → Value → Value} {key : String}
    {v : Option Value} (h : ∀ w, f key w = w) :
    mapWithKey f (optional key v) = optional key v := by
  rw [mapWithKey_optional, funext h]
  simp

/-- A rewrite of the list of some items is the list of others, equally many. -/
theorem mapWithKey_listed {f : String → Value → Value} {key : String} {items items' : List Value}
    (h : items ≠ [] → f key (.sequence items) = .sequence items')
    (hlen : items.length = items'.length) :
    mapWithKey f (listed key items) = listed key items' := by
  -- Only a list with items is there to be rewritten, and then the other one is there, too.
  cases items with
  | nil =>
    rw [List.eq_nil_of_length_eq_zero hlen.symm]
    rfl
  | cons v rest =>
    cases items' with
    | nil => simp at hlen
    | cons w rest' => simp [listed, h]

end CanonicalCwl.Entries
