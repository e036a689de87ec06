import CanonicalCwl.Proofs.Shape.Field
import CanonicalCwl.Proofs.Shape.Reading
import CanonicalCwl.Proofs.TypeExpr.Notation
import CanonicalCwl.TypeExpr.Tree

/-!
# Type Expressions and Their Trees

The tagged tree of a type expression is canonical, and stands for that expression. The one
thing that a tree cannot say is that a field has the default null, because a null is read as no
default; `TypeExpr.NoNull` excludes it, and holds of every type that was read from a tree.

- `TypeExpr.read_toTree_eq`: the tree of a type is read, with every null default as no default.
- `TypeExpr.read_toTree`: the tree of a type without null defaults is in canonical form.
- `TypeExpr.ofTree_toTree`: the tree of a type stands for the type.
- `TypeExpr.noNull_ofTree`: a type that was read from a tree has no null default.
-/

namespace CanonicalCwl

open Result

namespace TypeExpr

mutual

/-- No field in the type has the default null. -/
def NoNull : TypeExpr → Prop
  | named _ => True
  | array items => items.NoNull
  | union members => NoNullAll members
  | record _ fields => NoNullFields fields
  | enum _ _ => True

/-- No field in the members of a union has the default null. -/
def NoNullAll : List TypeExpr → Prop
  | [] => True
  | t :: rest => t.NoNull ∧ NoNullAll rest

/-- No field, and none in the types of the fields, has the default null. -/
def NoNullFields : List (FieldOf TypeExpr) → Prop
  | [] => True
  | f :: rest => f.default ≠ some .null ∧ f.type.NoNull ∧ NoNullFields rest

end

mutual

/-- The type with every default null of a field read as no default. -/
def dropNullDefaults : TypeExpr → TypeExpr
  | named name => named name
  | array items => array items.dropNullDefaults
  | union members => union (dropNullDefaultsAll members)
  | record name fields => record name (dropNullDefaultsFields fields)
  | enum name symbols => enum name symbols

/-- The members of a union with every default null of a field read as no default. -/
def dropNullDefaultsAll : List TypeExpr → List TypeExpr
  | [] => []
  | t :: rest => t.dropNullDefaults :: dropNullDefaultsAll rest

/-- The fields of a record with every default null read as no default. -/
def dropNullDefaultsFields : List (FieldOf TypeExpr) → List (FieldOf TypeExpr)
  | [] => []
  | f :: rest =>
      { f with type := f.type.dropNullDefaults, default := f.default.filter (· ≠ .null) } ::
        dropNullDefaultsFields rest

end

/-- A default that is not null stays. -/
theorem filter_ne_null {v : Option Value} (h : v ≠ some .null) : v.filter (· ≠ .null) = v := by
  cases v with
  | none => rfl
  | some v => simpa using h

mutual

/-- A type without a null default stays. -/
theorem dropNullDefaults_eq_self : ∀ {t : TypeExpr}, t.NoNull → t.dropNullDefaults = t
  | named name, _ => by rw [dropNullDefaults]
  | array items, h => by
      rw [NoNull] at h
      rw [dropNullDefaults, dropNullDefaults_eq_self h]
  | union members, h => by
      rw [NoNull] at h
      rw [dropNullDefaults, dropNullDefaultsAll_eq_self h]
  | record name fields, h => by
      rw [NoNull] at h
      rw [dropNullDefaults, dropNullDefaultsFields_eq_self h]
  | enum name symbols, _ => by rw [dropNullDefaults]

/-- Members without a null default stay. -/
theorem dropNullDefaultsAll_eq_self :
    ∀ {ts : List TypeExpr}, NoNullAll ts → dropNullDefaultsAll ts = ts
  | [], _ => by rw [dropNullDefaultsAll]
  | t :: ts, h => by
      rw [NoNullAll] at h
      rw [dropNullDefaultsAll, dropNullDefaults_eq_self h.1, dropNullDefaultsAll_eq_self h.2]

/-- Fields without a null default stay. -/
theorem dropNullDefaultsFields_eq_self :
    ∀ {fs : List (FieldOf TypeExpr)}, NoNullFields fs → dropNullDefaultsFields fs = fs
  | [], _ => by rw [dropNullDefaultsFields]
  | f :: fs, h => by
      rw [NoNullFields] at h
      rw [dropNullDefaultsFields, dropNullDefaults_eq_self h.2.1, filter_ne_null h.1,
        dropNullDefaultsFields_eq_self h.2.2]

end

/-! ## From types to trees -/

/-- The tree of a field is read if the tree of its type is. -/
theorem read_treeWith (f : Field) {type type' : Value}
    (htype : (Shape.choice .type).read type = .ok type') :
    (Shape.record .field).read (f.treeWith type) =
      .ok (FieldOf.treeWith { f with default := f.default.filter (· ≠ .null) } type') := by
  have hreads {d : Option Value} (hdefault : d ≠ some .null) :=
    (((Shape.Reads.required "name" (Shape.read_text f.name)).append
      (.required "type" htype)).append (.listedTexts "doc" f.doc)).append
      (.optionalTree "default" hdefault)
  by_cases hnull : f.default = some .null
  · have hslot : Slot.optional "default" .anything ∈ RecordKind.slots .field := by
      simp [RecordKind.slots]
    have hread := (hreads (d := none) nofun).read_record (r := .field)
    have hnone : (some Value.null).filter (· ≠ .null) = none := rfl
    rw [FieldOf.treeWith, FieldOf.treeWith, hnull, hnone]
    -- No default is written, neither before nor after.
    exact (Shape.read_record_append_null hslot rfl _).trans
      (by simpa [Entries.optional, Entries.listedTexts] using hread)
  · rw [filter_ne_null hnull]
    exact (hreads hnull).read_record (r := .field)

mutual

/-- The tree of a type is read as the tree of the type without null defaults. -/
theorem read_toTree_eq :
    ∀ t : TypeExpr, (Shape.choice .type).read t.toTree = .ok t.dropNullDefaults.toTree
  | named name => by
      rw [dropNullDefaults, toTree]
      exact Shape.read_tagged rfl (Shape.read_text name)
  | array items => by
      have hreads := Shape.Reads.required "items" (read_toTree_eq items)
      rw [dropNullDefaults, toTree, toTree]
      exact Shape.read_tagged (s := .record .arrayType) rfl
        (hreads.read_record (r := .arrayType))
  | union members => by
      have hmembers : (Shape.listOf (.choice .type)).read (.sequence (toTrees members)) =
          .ok (.sequence (toTrees (dropNullDefaultsAll members))) :=
        Shape.read_listOf_eq_ok_iff.mpr ⟨_, _, rfl, rfl, read_toTrees members⟩
      have hreads := Shape.Reads.required "types" hmembers
      rw [dropNullDefaults, toTree, toTree]
      exact Shape.read_tagged (s := .record .unionType) rfl
        (hreads.read_record (r := .unionType))
  | record name fields => by
      have hfields : (Shape.listOf (.record .field)).read (.sequence (fieldTrees fields)) =
          .ok (.sequence (fieldTrees (dropNullDefaultsFields fields))) :=
        Shape.read_listOf_eq_ok_iff.mpr ⟨_, _, rfl, rfl, read_fieldTrees fields⟩
      have hreads := (Shape.Reads.defaulted "name" (.string "") (Shape.read_text name)).append
        (.defaulted "fields" (.sequence []) hfields)
      rw [dropNullDefaults, toTree, toTree]
      exact Shape.read_tagged (s := .record .recordType) rfl
        (hreads.read_record (r := .recordType))
  | enum name symbols => by
      have hsymbols : (Shape.listOf .text).read (.strings symbols) = .ok (.strings symbols) := by
        refine Shape.read_listOf_eq_ok_iff.mpr ⟨_, _, rfl, rfl, List.forall₂_same.mpr ?_⟩
        intro v hv
        obtain ⟨s, -, rfl⟩ := List.mem_map.mp hv
        exact Shape.read_text s
      have hreads := (Shape.Reads.defaulted "name" (.string "") (Shape.read_text name)).append
        (.required "symbols" hsymbols)
      rw [dropNullDefaults, toTree]
      exact Shape.read_tagged (s := .record .enumType) rfl
        (hreads.read_record (r := .enumType))

/-- The trees of types are read one by one. -/
theorem read_toTrees : ∀ ts : List TypeExpr,
    List.Forall₂ (fun v w => (Shape.choice .type).read v = .ok w) (toTrees ts)
      (toTrees (dropNullDefaultsAll ts))
  | [] => by
      rw [dropNullDefaultsAll, toTrees]
      exact .nil
  | t :: ts => by
      rw [dropNullDefaultsAll, toTrees, toTrees]
      exact .cons (read_toTree_eq t) (read_toTrees ts)

/-- The trees of fields are read one by one. -/
theorem read_fieldTrees : ∀ fs : List (FieldOf TypeExpr),
    List.Forall₂ (fun v w => (Shape.record .field).read v = .ok w) (fieldTrees fs)
      (fieldTrees (dropNullDefaultsFields fs))
  | [] => by
      rw [dropNullDefaultsFields, fieldTrees]
      exact .nil
  | f :: fs => by
      rw [dropNullDefaultsFields, fieldTrees, fieldTrees]
      exact .cons (read_treeWith f (read_toTree_eq f.type)) (read_fieldTrees fs)

end

/-- The tree of a type without a null default is in canonical form. -/
theorem read_toTree {t : TypeExpr} (h : t.NoNull) :
    (Shape.choice .type).read t.toTree = .ok t.toTree := by
  rw [read_toTree_eq, dropNullDefaults_eq_self h]

/-! ## From trees to types -/

mutual

/-- The tree of a type stands for the type. -/
theorem ofTree_toTree : ∀ t : TypeExpr, ofTree t.toTree = t
  | named name => by rw [toTree, Value.tagged, ofTree]
  | array items => by rw [toTree, Value.tagged, ofTree, ofTree_toTree items]
  | union members => by rw [toTree, Value.tagged, ofTree, ofTrees_toTrees members]
  | record name fields => by
      rw [toTree, Value.tagged, ofTree, fieldsOfTrees_fieldTrees fields]
  | enum name symbols => by
      rw [toTree, Value.tagged, Value.strings, ofTree, Value.filterMap_string?]

/-- The trees of types stand for the types. -/
theorem ofTrees_toTrees : ∀ ts : List TypeExpr, ofTrees (toTrees ts) = ts
  | [] => by rw [toTrees, ofTrees]
  | t :: ts => by rw [toTrees, ofTrees, ofTree_toTree t, ofTrees_toTrees ts]

/-- The trees of fields stand for the fields. -/
theorem fieldsOfTrees_fieldTrees :
    ∀ fs : List (FieldOf TypeExpr), fieldsOfTrees (fieldTrees fs) = fs
  | [] => by rw [fieldTrees, fieldsOfTrees]
  | ⟨name, type, doc, default⟩ :: fs => by
      rw [fieldTrees, fieldsOfTrees, fieldsOfTrees_fieldTrees fs]
      have hdoc : (Value.mapping (Entries.listed "doc" (doc.map .string) ++
          Entries.optional "default" default)).stringsAt "doc" = doc := by
        simp
      simp only [FieldOf.treeWith, List.cons_append, List.nil_append, fieldOfTree,
        ofTree_toTree type, hdoc]
      simp

end

/-! ## Types that were read from a tree -/

mutual

/-- A type that was read from a tree has no null default. -/
theorem noNull_ofTree (w : Value) {v : Value} (h : (Shape.choice .type).read v = .ok w) :
    (ofTree w).NoNull := by
  rw [ofTree.eq_def]
  -- The tag decides what the tree stands for; a name and an enum have no fields.
  split
  · rw [NoNull]
    trivial
  next items =>
    obtain ⟨v', hv⟩ := Shape.read_of_tagged h (s := .record .arrayType) rfl
    obtain ⟨u, hu⟩ := Shape.takes_of_read_record hv (.required "items" (.choice .type))
      (by simp [RecordKind.slots]) nofun rfl
    rw [NoNull]
    exact noNull_ofTree items hu.read
  next members =>
    obtain ⟨v', hv⟩ := Shape.read_of_tagged h (s := .record .unionType) rfl
    obtain ⟨u, hu⟩ := Shape.takes_of_read_record hv
      (.required "types" (.listOf (.choice .type))) (by simp [RecordKind.slots]) nofun rfl
    rw [NoNull]
    exact noNullAll_ofTrees members fun w hw => Shape.read_of_mem_listOf hu.read hw
  next name fields =>
    obtain ⟨v', hv⟩ := Shape.read_of_tagged h (s := .record .recordType) rfl
    obtain ⟨fs, heq, hholds⟩ := Shape.get?_of_read_record hv
    obtain rfl := Value.mapping.inj heq
    rw [NoNull]
    -- The fields were read from a tree, or are the default, of which there are none.
    rcases hholds (.defaulted "fields" (.listOf (.record .field)) (.sequence []))
      (by simp [RecordKind.slots]) (.sequence fields) rfl with ⟨u, hu⟩ | hdefault
    · exact noNullFields_fieldsOfTrees fields fun w hw => Shape.read_of_mem_listOf hu.read hw
    · obtain rfl : [] = fields := by simpa [Slot.defaulted] using hdefault
      rw [fieldsOfTrees, NoNullFields]
      trivial
  · rw [NoNull]
    trivial
  · rw [NoNull]
    trivial

/-- Types that were read from trees have no null default. -/
theorem noNullAll_ofTrees (ws : List Value)
    (h : ∀ w ∈ ws, ∃ v, (Shape.choice .type).read v = .ok w) : NoNullAll (ofTrees ws) := by
  match ws with
  | [] =>
    rw [ofTrees, NoNullAll]
    trivial
  | w :: ws =>
    obtain ⟨v, hv⟩ := h w (List.mem_cons_self ..)
    rw [ofTrees, NoNullAll]
    exact ⟨noNull_ofTree w hv, noNullAll_ofTrees ws fun w hw => h w (List.mem_cons_of_mem _ hw)⟩

/-- Fields that were read from trees have no null default, and none in their types. -/
theorem noNullFields_fieldsOfTrees (ws : List Value)
    (h : ∀ w ∈ ws, ∃ v, (Shape.record .field).read v = .ok w) :
    NoNullFields (fieldsOfTrees ws) := by
  match ws with
  | [] =>
    rw [fieldsOfTrees, NoNullFields]
    trivial
  | w :: ws =>
    obtain ⟨v, hv⟩ := h w (List.mem_cons_self ..)
    have hrest := noNullFields_fieldsOfTrees ws fun w hw => h w (List.mem_cons_of_mem _ hw)
    rw [fieldsOfTrees, NoNullFields]
    suffices hfield : (fieldOfTree w).default ≠ some .null ∧ (fieldOfTree w).type.NoNull from
      ⟨hfield.1, hfield.2, hrest⟩
    rw [fieldOfTree.eq_def]
    -- Trees of another form stand for a field without a default.
    split
    next name type rest =>
      obtain ⟨u, hu⟩ := Shape.takes_of_read_record hv (.required "type" (.choice .type))
        (by simp [RecordKind.slots]) nofun rfl
      exact ⟨Shape.ne_null_of_read_record hv "default" (by simp [RecordKind.slots]),
        noNull_ofTree type hu.read⟩
    · exact ⟨nofun, by rw [NoNull]; trivial⟩

end

/-! ## Types that are read again -/

/-- A short notation has no fields. -/
theorem noNull_ofReversed (cs : List Char) : (ofReversed cs).NoNull := by
  fun_induction ofReversed cs with
  | case1 rest ih => simp [optional, NoNull, NoNullAll, ih]
  | case2 rest ih => rwa [NoNull]
  | case3 cs => simp [NoNull]

mutual

/-- Reading the notation of a type brings in no null default. -/
theorem noNull_reread : ∀ {t : TypeExpr}, t.NoNull → t.reread.NoNull
  | named name, _ => by
      rw [reread]
      exact noNull_ofReversed _
  | array items, h => by
      rw [NoNull] at h
      rw [reread, NoNull]
      exact noNull_reread h
  | union members, h => by
      rw [NoNull] at h
      rw [reread, NoNull]
      exact noNullAll_rereadAll h
  | record name fields, h => by
      rw [NoNull] at h
      rw [reread, NoNull]
      exact noNullFields_rereadFields h
  | enum name symbols, _ => by
      rw [reread, NoNull]
      trivial

/-- Reading the notations of members brings in no null default. -/
theorem noNullAll_rereadAll : ∀ {ts : List TypeExpr}, NoNullAll ts → NoNullAll (rereadAll ts)
  | [], _ => by
      rw [rereadAll, NoNullAll]
      trivial
  | t :: ts, h => by
      rw [NoNullAll] at h
      rw [rereadAll, NoNullAll]
      exact ⟨noNull_reread h.1, noNullAll_rereadAll h.2⟩

/-- Reading the notations of fields brings in no null default. -/
theorem noNullFields_rereadFields :
    ∀ {fs : List (FieldOf TypeExpr)}, NoNullFields fs → NoNullFields (rereadFields fs)
  | [], _ => by
      rw [rereadFields, NoNullFields]
      trivial
  | f :: fs, h => by
      rw [NoNullFields] at h
      rw [rereadFields]
      split
      · exact noNullFields_rereadFields h.2.2
      · rw [NoNullFields]
        exact ⟨h.1, noNull_reread h.2.1, noNullFields_rereadFields h.2.2⟩

end

end TypeExpr

end CanonicalCwl
