import CanonicalCwl.Proofs.Entries

/-!
# Fields Written and Taken Out Again

A field that is taken out of the entries of a record is what was written for it. The lemmas are
simp rules for records that are put together field by field: a lookup is decided by the names
of the fields, and a text, a truth value or a list under a key gives itself back.
-/

namespace CanonicalCwl.Value

/-! ## Values under their constructors -/

@[simp] theorem string?_string (s : String) : (string s).string? = some s := rfl

@[simp] theorem int?_int (i : Int64) : (int i).int? = some i := rfl

@[simp] theorem mapping?_mapping (entries : Mapping) : (mapping entries).mapping? = some entries :=
  rfl

@[simp] theorem string?_comp_string : string? ∘ string = some := rfl

@[simp] theorem int?_comp_int : int? ∘ int = some := rfl

@[simp] theorem mapping?_comp_mapping : mapping? ∘ mapping = some := rfl

/-- The texts of a sequence of texts. -/
theorem filterMap_string? (xs : List String) : (xs.map string).filterMap string? = xs := by
  simp

@[simp] theorem bind_string?_map (s : Option String) :
    (s.map Value.string).bind Value.string? = s := by
  cases s <;> rfl

@[simp] theorem bind_bool?_map (b : Option Bool) : (b.map Value.bool).bind Value.bool? = b := by
  cases b <;> rfl

@[simp] theorem bind_int?_map (i : Option Int64) : (i.map Value.int).bind Value.int? = i := by
  cases i <;> rfl

/-- The items of a list that is not written when empty. -/
@[simp] theorem items_of_listed (items : List Value) :
    ((Entries.nonempty? items).bind Value.sequence?).getD [] = items := by
  cases items <;> rfl

/-! ## Values under a key -/

/-- What a lookup finds in a well-formed tree is well-formed. -/
theorem WellFormed.get? {v w : Value} {key : String} (h : v.WellFormed) (hw : v.get? key = some w) :
    w.WellFormed := by
  cases v with
  | mapping es =>
    rw [WellFormed, wellFormedEntries_iff] at h
    exact h.2 _ (Entries.mem_of_get? hw)
  | _ => cases hw

section

variable (entries : Mapping) (key : String)

@[simp] theorem get?_mapping : (Value.mapping entries).get? key = Entries.get? entries key := rfl

@[simp] theorem text?_eq (v : Value) : v.text? key = (v.get? key).bind Value.string? := rfl

@[simp] theorem flagAt_eq (v : Value) : v.flagAt key = (v.get? key).bind Value.bool? := rfl

@[simp] theorem intAt_eq (v : Value) : v.intAt key = (v.get? key).bind Value.int? := rfl

@[simp] theorem itemsAt_eq (v : Value) :
    v.itemsAt key = ((v.get? key).bind Value.sequence?).getD [] := rfl

@[simp] theorem stringsAt_eq (v : Value) :
    v.stringsAt key = (v.itemsAt key).filterMap Value.string? := rfl

@[simp] theorem intsAt_eq (v : Value) :
    v.intsAt key = (v.itemsAt key).filterMap Value.int? := rfl

@[simp] theorem mappingsAt_eq (v : Value) :
    v.mappingsAt key = (v.itemsAt key).filterMap Value.mapping? := rfl

end

/-- An item under a key is smaller than the entries. -/
theorem sizeOf_lt_of_mem_itemsAt {entries : Mapping} {key : String} {w : Value}
    (h : w ∈ (Value.mapping entries).itemsAt key) : sizeOf w < sizeOf entries := by
  rw [itemsAt_eq, get?_mapping] at h
  match hu : Entries.get? entries key with
  | some (.sequence ws) =>
    rw [hu] at h
    have hentries := sizeOf_lt_of_entries_get? hu
    have hitem : sizeOf w < sizeOf ws := List.sizeOf_lt_of_mem h
    simp only [sequence.sizeOf_spec] at hentries
    omega
  | none | some .null | some (.bool _) | some (.int _) | some (.float _) | some (.string _)
  | some (.mapping _) => simp [hu, sequence?] at h

end CanonicalCwl.Value
