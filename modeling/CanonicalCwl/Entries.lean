/-!
# Ordered Entries

Key–value entries in the order they were written. Documents, registries and lookup tables
are all lists of entries: a lookup takes the first entry of a key, and an insertion keeps
the position of a key that is already there.

Main statements:

- `Entries.get?_insert`: an insertion changes the value of its own key and of no other.
- `Entries.keys_insert`: an insertion appends a new key and keeps the order of the others.
- `Entries.keys_mapWithKey`: a rewrite of the values keeps the keys and their order.
-/

namespace CanonicalCwl

/-- Key–value entries in the order they were written. -/
abbrev Entries (α : Type) := List (String × α)

namespace Entries

variable {α β : Type}

/-- The keys, in order. -/
def keys (es : Entries α) : List String := es.map (·.1)

/-- No key occurs twice. -/
def Distinct (es : Entries α) : Prop := (keys es).Nodup

/-- The value of the first entry of `key`. -/
def get? : Entries α → String → Option α
  | [], _ => none
  | (k, v) :: rest, key => if k = key then some v else get? rest key

/-- Whether some entry has this key. -/
def contains (es : Entries α) (key : String) : Bool := (get? es key).isSome

/-- Give `key` a value: in place if the key is present, at the end otherwise. -/
def insert : Entries α → String → α → Entries α
  | [], key, value => [(key, value)]
  | (k, v) :: rest, key, value =>
      if k = key then (k, value) :: rest else (k, v) :: insert rest key value

/-- Drop the entries of `key`. -/
def erase (es : Entries α) (key : String) : Entries α := es.filter (·.1 ≠ key)

/-- Rewrite every value, knowing its key. -/
def mapWithKey (f : String → α → β) (es : Entries α) : Entries β :=
  es.map fun (k, v) => (k, f k v)

/-- Rewrite the value under `key`; nothing happens if the key is absent. -/
def modify (es : Entries α) (key : String) (f : α → α) : Entries α :=
  mapWithKey (fun k v => if k = key then f v else v) es

/-- Entries of a list in which a later value of a key wins but keeps the first position. -/
def ofList (es : List (String × α)) : Entries α :=
  es.foldl (fun acc (k, v) => insert acc k v) []

@[simp] theorem get?_nil (key : String) : get? ([] : Entries α) key = none := rfl

/-- A lookup decides at the first entry whether to go on. -/
theorem get?_cons (k : String) (v : α) (rest : Entries α) (key : String) :
    get? ((k, v) :: rest) key = if k = key then some v else get? rest key := rfl

/-- An insertion changes the value of its own key and of no other. -/
theorem get?_insert (es : Entries α) (key : String) (value : α) (other : String) :
    get? (insert es key value) other = if key = other then some value else get? es other := by
  induction es with
  | nil => simp [insert, get?]
  | cons e rest ih =>
    obtain ⟨k, v⟩ := e
    by_cases hk : k = key
    · subst hk
      by_cases ho : k = other <;> simp [insert, get?, ho]
    · by_cases ho : k = other
      · subst ho
        simp [insert, get?, hk, Ne.symm hk]
      · simp [insert, get?, hk, ho, ih]

/-- An insertion appends a new key and keeps the order of the others. -/
theorem keys_insert (es : Entries α) (key : String) (value : α) :
    keys (insert es key value) = if key ∈ keys es then keys es else keys es ++ [key] := by
  induction es with
  | nil => simp [insert, keys]
  | cons e rest ih =>
    obtain ⟨k, v⟩ := e
    by_cases hk : k = key
    · subst hk
      simp [insert, keys]
    · have ih' : List.map (·.1) (insert rest key value) =
          if key ∈ List.map (·.1) rest then List.map (·.1) rest
          else List.map (·.1) rest ++ [key] := ih
      by_cases hm : key ∈ List.map (·.1) rest
      · simp [insert, keys, hk, Ne.symm hk, ih', hm]
      · simp [insert, keys, hk, Ne.symm hk, ih', hm]

/-- A rewrite of the values keeps the keys and their order. -/
@[simp] theorem keys_mapWithKey (f : String → α → β) (es : Entries α) :
    keys (mapWithKey f es) = keys es := by
  simp [keys, mapWithKey]

/-- A rewrite of the values acts on what a lookup finds. -/
theorem get?_mapWithKey (f : String → α → β) (es : Entries α) (key : String) :
    get? (mapWithKey f es) key = (get? es key).map (f key) := by
  induction es with
  | nil => rfl
  | cons e rest ih =>
    obtain ⟨k, v⟩ := e
    have ih' : get? (List.map (fun (k, v) => (k, f k v)) rest) key =
        (get? rest key).map (f key) := ih
    by_cases hk : k = key
    · subst hk
      simp [mapWithKey, get?]
    · simp [mapWithKey, get?, hk, ih']

end Entries

end CanonicalCwl
