import CanonicalCwl.Files.Write
import CanonicalCwl.Proofs.Result

/-!
# What Writing Changes

Directories are made without any change to files. A file that is written is the only one that has
changed, and it is found by the path that it was written by.

- `Files.OnlyMakes`: nothing but directories has been made.
- `Files.onlyMakes_of_makePath`: so it is when the directories of a path are made.
- `Files.lookup_put`: the texts of the files after one of them is put in place.
- `Files.Keeps`: what was a directory is one, and nothing has gone.
- `Files.follow_eq_ok_of_keeps`: names lead to the same place then.
- `Files.exists_of_write`: what a write amounts to.
-/

namespace CanonicalCwl.Files

open Result

variable {fs fs' fs'' : Files} {place other start : Location} {text path : String}
  {names : List String} {cause : IoCause}

/-! ## Making directories -/

/-- Nothing but directories has been made. -/
structure OnlyMakes (fs fs' : Files) : Prop where
  working : fs'.working = fs.working
  texts : fs'.texts = fs.texts
  directories : fs.directories <+: fs'.directories

namespace OnlyMakes

theorem refl (fs : Files) : OnlyMakes fs fs := ⟨rfl, rfl, List.prefix_rfl⟩

theorem trans (h : OnlyMakes fs fs') (h' : OnlyMakes fs' fs'') : OnlyMakes fs fs'' where
  working := h'.working.trans h.working
  texts := h'.texts.trans h.texts
  directories := h.directories.trans h'.directories

end OnlyMakes

/-- Making one directory makes nothing else. -/
theorem onlyMakes_of_makeDirectory (h : fs.makeDirectory start names = .ok fs') :
    OnlyMakes fs fs' := by
  cases names with
  | nil => cases h
  | cons name before =>
    obtain ⟨place, -, h⟩ := bind_eq_ok_iff.mp h
    split at h
    · cases h
    · obtain rfl := pure_eq_ok_iff.mp h
      exact ⟨rfl, rfl, List.prefix_append ..⟩

/-- Nothing but directories is made, even if it fails. -/
theorem onlyMakes_makeDirectories (fs : Files) (start : Location) (names : List String) :
    OnlyMakes fs (fs.makeDirectories start names).1 := by
  -- The innermost directory comes first. Those around it are made only if it cannot be made alone.
  induction names generalizing fs with
  | nil => exact .refl fs
  | cons name before ih =>
    rw [makeDirectories]
    split
    next fs' hmade => exact onlyMakes_of_makeDirectory hmade
    next =>
      have hbefore := ih fs
      split
      next fs' cause heq => rwa [heq] at hbefore
      next fs' heq =>
        rw [heq] at hbefore
        split
        next fs'' hmade => exact hbefore.trans (onlyMakes_of_makeDirectory hmade)
        next => exact hbefore
    next => exact .refl fs

/-- Whether the directories of a path can be made or not, nothing else is. -/
theorem onlyMakes_of_makePath {result : Except IoCause Unit}
    (h : fs.makePath path = (fs', result)) : OnlyMakes fs fs' := by
  have hmakes : OnlyMakes fs (fs.makePath path).1 := onlyMakes_makeDirectories ..
  rwa [h] at hmakes

/-! ## Putting a file in place -/

/-- The texts of files with that at one location replaced. -/
def replaced (place : Location) (text : String) (e : Location × String) : Location × String :=
  if e.1 = place then (place, text) else e

theorem lookup_map_replaced_of_ne (h : other ≠ place) (texts : List (Location × String)) :
    (texts.map (replaced place text)).lookup other = texts.lookup other := by
  induction texts with
  | nil => rfl
  | cons e rest ih =>
    obtain ⟨file, old⟩ := e
    rw [List.map_cons, replaced, List.lookup_cons]
    by_cases hfile : file = place
    · have hother : (other == place) = false := by simpa using h
      simp only [hfile, if_true, List.lookup_cons, hother, ih]
    · simp only [hfile, if_false, List.lookup_cons, ih]

theorem lookup_map_replaced_self {texts : List (Location × String)}
    (h : texts.any (·.1 == place)) :
    (texts.map (replaced place text)).lookup place = some text := by
  induction texts with
  | nil => cases h
  | cons e rest ih =>
    obtain ⟨file, old⟩ := e
    rw [List.map_cons, replaced]
    by_cases hfile : file = place
    · simp [hfile]
    · have hrest : rest.any (·.1 == place) := by simpa [hfile] using h
      have hplace : (place == file) = false := by simpa using Ne.symm hfile
      simp [hfile, List.lookup_cons, hplace, ih hrest]

@[simp] theorem working_put (fs : Files) (place : Location) (text : String) :
    (fs.put place text).working = fs.working := by
  rw [put]
  split_ifs <;> rfl

@[simp] theorem directories_put (fs : Files) (place : Location) (text : String) :
    (fs.put place text).directories = fs.directories := by
  rw [put]
  split_ifs <;> rfl

/-- The text of a file is that which was put into it last. -/
theorem lookup_put (fs : Files) (place : Location) (text : String) (other : Location) :
    (fs.put place text).texts.lookup other =
      if other = place then some text else fs.texts.lookup other := by
  rw [put]
  -- A file that is there is replaced, and a new one comes last.
  split_ifs with hold hother hother
  · subst hother
    exact lookup_map_replaced_self hold
  · exact lookup_map_replaced_of_ne hother _
  · subst hother
    have hnone : fs.texts.lookup other = none := by
      rw [List.lookup_eq_none_iff]
      rintro e he
      simp only [List.any_eq_true, not_exists, not_and] at hold
      have hne : e.1 ≠ other := by simpa using hold e he
      simpa using hne.symm
    simp [List.lookup_append, hnone]
  · have hother : (other == place) = false := by simpa using hother
    simp [List.lookup_append, List.lookup_cons, hother]

theorem lookup_put_self (fs : Files) (place : Location) (text : String) :
    (fs.put place text).texts.lookup place = some text := by
  rw [lookup_put, if_pos rfl]

theorem textAt_put_self (fs : Files) (place : Location) (text : String) :
    (fs.put place text).textAt place = .ok text := by
  rw [textAt, entry?, lookup_put_self]

/-! ## Finding a file -/

theorem entry?_eq_directory_iff :
    fs.entry? place = some .directory ↔ fs.texts.lookup place = none ∧ fs.isDirectory place := by
  unfold entry?
  cases fs.texts.lookup place <;> simp

theorem isSome_entry?_iff :
    (fs.entry? place).isSome ↔ (fs.texts.lookup place).isSome ∨ fs.isDirectory place := by
  unfold entry?
  cases fs.texts.lookup place with
  | some text => simp
  | none => by_cases h : fs.isDirectory place <;> simp [h]

/-- What was a directory is one, and nothing has gone. -/
structure Keeps (fs fs' : Files) : Prop where
  directory : ∀ place, fs.entry? place = some .directory → fs'.entry? place = some .directory
  isSome : ∀ place, (fs.entry? place).isSome → (fs'.entry? place).isSome

/-- Names lead to the same place then. -/
theorem follow_eq_ok_of_keeps (hkeeps : Keeps fs fs') (h : fs.follow start names = .ok place) :
    fs'.follow start names = .ok place := by
  induction names generalizing start with
  | nil => exact h
  | cons name rest ih =>
    rw [follow] at h ⊢
    split at h
    next => cases h
    next => cases h
    next hentry =>
      rw [hkeeps.directory start hentry]
      split_ifs at h ⊢
      · exact ih h
      · exact ih h
      · split at h
        next => cases h
        next e he =>
          have hsome := hkeeps.isSome _ (Option.isSome_of_eq_some he)
          obtain ⟨e', he'⟩ := Option.isSome_iff_exists.mp hsome
          rw [he']
          exact ih h

/-- Names are followed one after the other. -/
theorem follow_append (fs : Files) (start : Location) (names names' : List String) :
    fs.follow start (names ++ names') = fs.follow start names >>= (fs.follow · names') := by
  induction names generalizing start with
  | nil => rfl
  | cons name rest ih =>
    rw [List.cons_append, follow, follow]
    split
    next => rfl
    next => rfl
    next =>
      split_ifs
      · exact ih _
      · exact ih _
      · split
        next => rfl
        next => exact ih _

/-- The locations of files are kept. -/
theorem exists_mem_texts_put (place : Location) (text : String) {e : Location × String}
    (he : e ∈ fs.texts) : ∃ e' ∈ (fs.put place text).texts, e'.1 = e.1 := by
  rw [put]
  split_ifs
  · refine ⟨_, List.mem_map_of_mem he, ?_⟩
    split_ifs with hfile
    · exact hfile.symm
    · rfl
  · exact ⟨e, List.mem_append_left _ he, rfl⟩

theorem isDirectory_put (place : Location) (text : String) (h : fs.isDirectory other) :
    (fs.put place text).isDirectory other := by
  simp only [isDirectory, Bool.or_eq_true, List.any_eq_true, working_put, directories_put] at h ⊢
  refine h.imp_right ?_
  rintro ⟨e, he, hother⟩
  obtain ⟨e', he', hfile⟩ := exists_mem_texts_put place text he
  exact ⟨e', he', by rwa [hfile]⟩

/-- A file may be put where there is no directory. -/
theorem keeps_put (h : fs.entry? place ≠ some .directory) (text : String) :
    Keeps fs (fs.put place text) := by
  constructor
  · intro other hother
    have hne : other ≠ place := fun heq => h (heq ▸ hother)
    rw [entry?_eq_directory_iff] at hother ⊢
    rw [lookup_put, if_neg hne]
    exact ⟨hother.1, isDirectory_put place text hother.2⟩
  · intro other hother
    rw [isSome_entry?_iff] at hother ⊢
    rw [lookup_put]
    split_ifs
    · exact .inl rfl
    · exact hother.imp_right (isDirectory_put place text)

/-- The path names a file: its last name is one for a file, the names before lead to a directory,
and what is there under the last name is no directory. -/
structure NamesFile (fs : Files) (path : String) (around : Location) (name : String) : Prop where
  proper : ¬ Path.isVoid name ∧ name ≠ ".."
  leads : ∃ before, Path.names path = before ++ [name] ∧
    fs.follow (fs.origin path) before = .ok around
  directory : fs.entry? around = some .directory
  free : fs.entry? (around ++ [name]) ≠ some .directory

theorem follow_of_directory (h : fs.directory start names = .ok place) :
    fs.follow start names = .ok place ∧ fs.entry? place = some .directory := by
  obtain ⟨place', hfollow, h⟩ := bind_eq_ok_iff.mp h
  split at h
  next hentry =>
    obtain rfl := pure_eq_ok_iff.mp h
    exact ⟨hfollow, hentry⟩
  next => cases h
  next => cases h

/-- A path can be written to only if it names a file. -/
theorem exists_namesFile_of_writable (h : fs.writable path = .ok place) :
    ∃ around name, place = around ++ [name] ∧ NamesFile fs path around name := by
  obtain ⟨around, haround, h⟩ := bind_eq_ok_iff.mp h
  obtain ⟨hfollow, hdirectory⟩ := follow_of_directory haround
  dsimp only at h
  split at h
  next => cases h
  next hname =>
    split at h
    next => cases h
    next hfree =>
      obtain rfl := pure_eq_ok_iff.mp h
      rw [Bool.or_eq_true, decide_eq_true_eq, not_or] at hname
      refine ⟨around, _, rfl, hname, ?_, hdirectory, hfree⟩
      cases hlast : (Path.names path).getLast? with
      | none =>
        rw [hlast] at hname
        exact absurd rfl hname.1
      | some name =>
        rw [hlast, Option.getD_some] at hname
        obtain ⟨before, hbefore⟩ := List.getLast?_eq_some_iff.mp hlast
        have hne : ¬ (name == "") = true := fun heq => hname.1 (by rw [Path.isVoid, heq]; rfl)
        refine ⟨before, by rw [hbefore]; rfl, ?_⟩
        -- The path does not end in a slash.
        rw [hbefore, List.reverse_append, List.reverse_singleton, List.singleton_append,
          List.dropWhile_cons, if_neg hne, List.reverse_cons, List.reverse_reverse,
          List.dropLast_concat] at hfollow
        exact hfollow

/-- A file is found by its path when it has been put in place. -/
theorem NamesFile.locate_put {around : Location} {name : String}
    (h : NamesFile fs path around name) (text : String) :
    (fs.put (around ++ [name]) text).locate path = .ok (around ++ [name]) := by
  obtain ⟨before, hnames, hfollow⟩ := h.leads
  have hkeeps := keeps_put h.free text
  have horigin : (fs.put (around ++ [name]) text).origin path = fs.origin path := by
    rw [origin, origin, working_put]
  have hlookup := lookup_put_self fs (around ++ [name]) text
  obtain ⟨e, he⟩ := Option.isSome_iff_exists.mp
    (isSome_entry?_iff.mpr (.inl (Option.isSome_of_mem hlookup)))
  rw [locate, horigin, hnames, follow_append, follow_eq_ok_of_keeps hkeeps hfollow]
  show Files.follow _ around [name] = _
  rw [follow, hkeeps.directory around h.directory]
  simp [h.proper, he, follow]

/-- The text that was written is found by the path, and no other file has changed. -/
theorem exists_of_write (h : fs.write path text = .ok fs') :
    ∃ place, fs'.locate path = .ok place ∧ fs'.textAt place = .ok text ∧
      ∀ other ≠ place, fs'.texts.lookup other = fs.texts.lookup other := by
  obtain ⟨place, hplace, h⟩ := bind_eq_ok_iff.mp h
  obtain rfl := pure_eq_ok_iff.mp h
  obtain ⟨around, name, rfl, hnames⟩ := exists_namesFile_of_writable hplace
  refine ⟨_, hnames.locate_put text, textAt_put_self .., fun other hother => ?_⟩
  rw [lookup_put, if_neg hother]

end CanonicalCwl.Files
