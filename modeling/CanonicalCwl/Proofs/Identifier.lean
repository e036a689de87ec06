import CanonicalCwl.Identifier
import Mathlib

/-!
# Words of Identifiers

The identifier of a field is made of the words of its name. A word ends before an underscore, and
between a small letter or a digit and a capital. In the identifier the words are in small letters
and separated by underscores, so that names of the same words have the same identifier. Different
names in camel case have different words.

- `Identifier.words`: the words of a name.
- `Identifier.breakWords_eq_intercalate`: they are what an identifier is made of.
- `Identifier.fieldWords`: the words of the identifier.
- `Identifier.snakeCase_eq_iff`: two names have one identifier exactly if these are the same.
- `Identifier.CamelCase.eq_of_fieldWords_eq`: a name in camel case is known by its words.
-/

namespace CanonicalCwl.Identifier

variable {c : Char} {cs w : List Char} {ws vs : List (List Char)} {s t : String}

/-! ## Words -/

/-- A word ends between a small letter or a digit and a capital. -/
def endsWord (c : Char) (rest : List Char) : Bool :=
  (c.isLower || c.isDigit) && rest.head?.any Char.isUpper

/-- The words of a name, in small letters. Between two underscores there is an empty word. -/
def words : List Char → List (List Char)
  | [] => [[]]
  | c :: rest =>
      if c = '_' then [] :: words rest
      else if endsWord c rest then [c.toLower] :: words rest
      else (words rest).modifyHead (c.toLower :: ·)

theorem words_ne_nil (cs : List Char) : words cs ≠ [] := by
  cases cs with
  | nil => exact List.cons_ne_nil [] []
  | cons c rest =>
    rw [words]
    split_ifs
    · exact List.cons_ne_nil [] _
    · exact List.cons_ne_nil [c.toLower] _
    · rw [Ne, List.modifyHead_eq_nil_iff]
      exact words_ne_nil rest

/-- The characters of words are those between underscores. -/
theorem exists_of_mem_words {x : Char} (hw : w ∈ words cs) (hx : x ∈ w) :
    ∃ c ∈ cs, c ≠ '_' ∧ c.toLower = x := by
  induction cs generalizing w with
  | nil =>
    cases List.mem_singleton.mp hw
    cases hx
  | cons c rest ih =>
    have hrest (v : List Char) (hv : v ∈ words rest) (hx : x ∈ v) :
        ∃ c' ∈ c :: rest, c' ≠ '_' ∧ c'.toLower = x := by
      obtain ⟨c', hc', hx⟩ := ih hv hx
      exact ⟨c', List.mem_cons_of_mem c hc', hx⟩
    rw [words] at hw
    split_ifs at hw with hunderscore
    · rcases List.mem_cons.mp hw with rfl | hw
      · cases hx
      · exact hrest w hw hx
    · rcases List.mem_cons.mp hw with rfl | hw
      · exact ⟨c, List.mem_cons_self .., hunderscore, (List.mem_singleton.mp hx).symm⟩
      · exact hrest w hw hx
    · obtain ⟨v, vs, hvs⟩ := List.exists_cons_of_ne_nil (words_ne_nil rest)
      rw [hvs] at hw hrest
      rcases List.mem_cons.mp hw with rfl | hw
      · rcases List.mem_cons.mp hx with rfl | hx
        · exact ⟨c, List.mem_cons_self .., hunderscore, rfl⟩
        · exact hrest v (List.mem_cons_self ..) hx
      · exact hrest w (List.mem_cons_of_mem v hw) hx

theorem not_isDigit_of_isAlpha (h : c.isAlpha) : ¬ c.isDigit := by
  simp only [Char.isAlpha, Char.isUpper, Char.isLower, Char.isDigit, Bool.or_eq_true,
    Bool.and_eq_true, decide_eq_true_eq, ge_iff_le, UInt32.le_iff_toNat_le] at h ⊢
  have : 'A'.val.toNat = 65 := rfl
  have : 'a'.val.toNat = 97 := rfl
  have : '9'.val.toNat = 57 := rfl
  omega

theorem isAlpha_of_isUpper (h : c.isUpper) : c.isAlpha := by
  rw [Char.isAlpha, h, Bool.true_or]

/-- A small letter or a digit before a capital makes a break. -/
theorem breakWords_true (cs : List Char) :
    breakWords true cs =
      if cs.head?.any Char.isUpper then '_' :: breakWords false cs else breakWords false cs := by
  cases cs with
  | nil => rfl
  | cons c rest => by_cases hupper : c.isUpper <;> simp [breakWords, hupper]

/-- What follows a character has a break in front of it if a word ends there. -/
theorem breakWords_cons (c : Char) (rest : List Char) :
    breakWords false (c :: rest) = c.toLower ::
      if endsWord c rest then '_' :: breakWords false rest else breakWords false rest := by
  by_cases hupper : c.isUpper
  · simp [breakWords, endsWord, hupper, Char.not_isLower_of_isUpper hupper,
      not_isDigit_of_isAlpha (isAlpha_of_isUpper hupper)]
  · rw [breakWords, if_neg hupper, Char.toLower_eq_of_not_isUpper hupper]
    cases hsmall : c.isLower || c.isDigit
    · simp [endsWord, hsmall]
    · simp [endsWord, hsmall, breakWords_true]

/-- A character in front of the first word stands in front of them all. -/
theorem intercalate_modifyHead_cons (c : Char) (h : ws ≠ []) :
    ['_'].intercalate (ws.modifyHead (c :: ·)) = c :: ['_'].intercalate ws := by
  obtain ⟨w, ws, rfl⟩ := List.exists_cons_of_ne_nil h
  cases ws <;> simp [List.intercalate]

theorem eq_or_exists_of_mem_intercalate (h : c ∈ ['_'].intercalate ws) :
    c = '_' ∨ ∃ w ∈ ws, c ∈ w := by
  induction ws with
  | nil => cases h
  | cons w ws ih =>
    by_cases hws : ws = []
    · rw [hws, List.intercalate_singleton] at h
      exact .inr ⟨w, List.mem_cons_self .., h⟩
    · rw [List.intercalate_cons_of_ne_nil hws, List.mem_append, List.mem_append,
        List.mem_singleton] at h
      rcases h with (h | h) | h
      · exact .inr ⟨w, List.mem_cons_self .., h⟩
      · exact .inl h
      · exact (ih h).imp_right fun ⟨v, hv, h⟩ => ⟨v, List.mem_cons_of_mem w hv, h⟩

/-- Broken into words, a name is its words with underscores between them. -/
theorem breakWords_eq_intercalate (cs : List Char) :
    breakWords false cs = ['_'].intercalate (words cs) := by
  induction cs with
  | nil => rfl
  | cons c rest ih =>
    have hne := words_ne_nil rest
    rw [breakWords_cons, words, ih]
    split_ifs with hends hunderscore hunderscore
    · cases hunderscore
      simp [endsWord] at hends
    · rw [List.intercalate_cons_of_ne_nil hne]
      rfl
    · cases hunderscore
      rw [List.intercalate_cons_of_ne_nil hne]
      rfl
    · rw [intercalate_modifyHead_cons _ hne]

/-! ## Words of identifiers -/

/-- The first word begins with a digit. -/
def startsWithDigit (ws : List (List Char)) : Bool := (ws.headD []).head?.any Char.isDigit

/-- An empty word comes before a leading digit. -/
def guardWords (ws : List (List Char)) : List (List Char) :=
  if startsWithDigit ws then [] :: ws else ws

/-- The words of the identifier of a field. An empty word comes after a reserved word that may not
be written as a raw identifier. -/
def fieldWords (s : String) : List (List Char) :=
  let ws := guardWords (words (clean s))
  if ws ∈ pathWords.map (fun word => [word.toList]) then ws ++ [[]] else ws

/-- The words with underscores between them. -/
def joined (ws : List (List Char)) : String := String.ofList (['_'].intercalate ws)

/-- Mark a reserved word. -/
def marked (word : String) : String := if word ∈ rawWords then "r#" ++ word else word

/-- There is a word, and words are of letters and digits. -/
structure AreWords (ws : List (List Char)) : Prop where
  ne_nil : ws ≠ []
  isAlphanum : ∀ w ∈ ws, ∀ c ∈ w, c.isAlphanum

theorem isAlphanum_toLower (h : c.isAlphanum) : c.toLower.isAlphanum := by
  rw [Char.isAlphanum, Bool.or_eq_true] at h ⊢
  refine h.imp (fun halpha => by rwa [Char.isAlpha_toLower_eq_isAlpha]) fun hdigit => ?_
  have hupper : ¬ c.isUpper := fun hupper =>
    not_isDigit_of_isAlpha (isAlpha_of_isUpper hupper) hdigit
  rwa [Char.toLower_eq_of_not_isUpper hupper]

/-- What is no letter or digit has become an underscore. -/
theorem isAlphanum_of_mem_clean (hc : c ∈ clean s) (hunderscore : c ≠ '_') : c.isAlphanum := by
  obtain ⟨x, -, hx⟩ := List.mem_map.mp hc
  split_ifs at hx with hallowed
  · rw [hx, allowed, Bool.or_eq_true, beq_iff_eq] at hallowed
    exact hallowed.resolve_right hunderscore
  · exact absurd hx.symm hunderscore

theorem areWords_words_clean (s : String) : AreWords (words (clean s)) where
  ne_nil := words_ne_nil _
  isAlphanum w hw x hx := by
    obtain ⟨c, hc, hunderscore, rfl⟩ := exists_of_mem_words hw hx
    exact isAlphanum_toLower (isAlphanum_of_mem_clean hc hunderscore)

namespace AreWords

theorem guardWords (h : AreWords ws) : AreWords (guardWords ws) := by
  rw [Identifier.guardWords]
  split_ifs
  · exact ⟨List.cons_ne_nil [] ws, List.forall_mem_cons.mpr ⟨List.forall_mem_nil _, h.isAlphanum⟩⟩
  · exact h

theorem append_nil (h : AreWords ws) : AreWords (ws ++ [[]]) where
  ne_nil := List.append_ne_nil_of_left_ne_nil h.ne_nil [[]]
  isAlphanum w hw c hc := by
    rcases List.mem_append.mp hw with hw | hw
    · exact h.isAlphanum w hw c hc
    · cases List.mem_singleton.mp hw
      cases hc

theorem not_mem_of_not_isAlphanum (h : AreWords ws) (hc : ¬ c.isAlphanum) : ∀ w ∈ ws, c ∉ w :=
  fun w hw hcw => hc (h.isAlphanum w hw c hcw)

/-- The words can be read off again. -/
theorem splitOn_intercalate (h : AreWords ws) : (['_'].intercalate ws).splitOn '_' = ws :=
  List.splitOn_intercalate '_' (h.not_mem_of_not_isAlphanum (by decide)) h.ne_nil

theorem joined_inj (hws : AreWords ws) (hvs : AreWords vs) : joined ws = joined vs ↔ ws = vs := by
  refine ⟨fun h => ?_, congrArg joined⟩
  rw [← hws.splitOn_intercalate, ← hvs.splitOn_intercalate, String.ofList_inj.mp h]

/-- What stands in an identifier is no mark. -/
theorem hash_not_mem_joined (h : AreWords ws) : '#' ∉ (joined ws).toList := by
  rw [joined, String.toList_ofList]
  intro hmem
  rcases eq_or_exists_of_mem_intercalate hmem with heq | ⟨w, hw, hmem⟩
  · exact absurd heq (by decide)
  · exact h.not_mem_of_not_isAlphanum (by decide) w hw hmem

theorem marked_joined_inj (hws : AreWords ws) (hvs : AreWords vs) :
    marked (joined ws) = marked (joined vs) ↔ ws = vs := by
  refine ⟨fun h => (hws.joined_inj hvs).mp ?_, congrArg fun ws => marked (joined ws)⟩
  have hmark (word : String) : '#' ∈ ("r#" ++ word).toList := by simp
  rw [marked, marked] at h
  split_ifs at h
  · exact (String.append_right_inj "r#").mp h
  · exact absurd (h ▸ hmark _) hvs.hash_not_mem_joined
  · exact absurd (h ▸ hmark _) hws.hash_not_mem_joined
  · exact h

end AreWords

theorem areWords_fieldWords (s : String) : AreWords (fieldWords s) := by
  have h := (areWords_words_clean s).guardWords
  rw [fieldWords]
  split_ifs
  · exact h.append_nil
  · exact h

/-- A break keeps a leading digit from the front. -/
theorem guardDigit_intercalate (h : ws ≠ []) :
    guardDigit (['_'].intercalate ws) =
      ['_'].intercalate (guardWords ws) := by
  -- What stands in front is a character of the first word, or a break after an empty one.
  obtain ⟨w, ws, rfl⟩ := List.exists_cons_of_ne_nil h
  cases w with
  | nil =>
    cases ws with
    | nil => rfl
    | cons v ws =>
      rw [List.intercalate_cons_cons]
      rfl
  | cons c w =>
    have hchars := intercalate_modifyHead_cons c (List.cons_ne_nil w ws)
    have hdigit : startsWithDigit ((c :: w) :: ws) = c.isDigit := rfl
    rw [List.modifyHead_cons] at hchars
    rw [guardWords, hdigit, hchars, guardDigit]
    split_ifs
    · rw [List.intercalate_cons_cons, hchars]
      rfl
    · exact hchars.symm

theorem joined_singleton (word : String) : joined [word.toList] = word := by
  rw [joined, List.intercalate_singleton, String.ofList_toList]

theorem areWords_of_mem_pathWords {word : String} (h : word ∈ pathWords) :
    AreWords [word.toList] := by
  have halphanum : ∀ word ∈ pathWords, ∀ c ∈ word.toList, c.isAlphanum := by simp [pathWords]
  exact ⟨List.cons_ne_nil word.toList [], List.forall_mem_singleton.mpr (halphanum word h)⟩

/-- A reserved word that may not be written as a raw identifier is a single word. -/
theorem joined_mem_pathWords_iff (h : AreWords ws) :
    joined ws ∈ pathWords ↔ ws ∈ pathWords.map fun word => [word.toList] := by
  rw [List.mem_map]
  constructor
  · intro hmem
    refine ⟨joined ws, hmem, ?_⟩
    rw [← (areWords_of_mem_pathWords hmem).joined_inj h, joined_singleton]
  · rintro ⟨word, hword, rfl⟩
    rwa [joined_singleton]

/-- The identifier of a field is its words with underscores between them, and a mark. -/
theorem snakeCase_eq (s : String) : snakeCase s = marked (joined (fieldWords s)) := by
  have h := areWords_words_clean s
  have hword : String.ofList (guardDigit (breakWords false (clean s))) =
      joined (guardWords (words (clean s))) := by
    rw [breakWords_eq_intercalate, guardDigit_intercalate h.ne_nil, joined]
  have hmark : ∀ word ∈ pathWords, marked (joined ([word.toList] ++ [[]])) = word ++ "_" := by
    decide +kernel
  rw [snakeCase, hword, fieldWords]
  simp only [joined_mem_pathWords_iff h.guardWords]
  split_ifs with hpath hraw
  · obtain ⟨word, hmem, hws⟩ := List.mem_map.mp hpath
    rw [← hws, joined_singleton, hmark word hmem]
  · rw [marked, if_pos hraw]
  · rw [marked, if_neg hraw]

/-- Two names have one identifier exactly if the words of the identifiers are the same. -/
theorem snakeCase_eq_iff (s t : String) :
    snakeCase s = snakeCase t ↔ fieldWords s = fieldWords t := by
  rw [snakeCase_eq, snakeCase_eq, (areWords_fieldWords s).marked_joined_inj (areWords_fieldWords t)]

/-! ## Names in camel case -/

/-- The name is of letters and digits, it does not begin with a capital, and no capital follows
another one. -/
structure CamelCase (cs : List Char) : Prop where
  isAlphanum : ∀ c ∈ cs, c.isAlphanum
  front : ∀ c ∈ cs.head?, ¬ c.isUpper
  capitals : cs.IsChain fun c d => c.isUpper → ¬ d.isUpper

/-- Put words together, with a capital in front of each but the first. -/
def rejoined : List (List Char) → List Char
  | [] => []
  | w :: ws => w ++ ws.flatMap (·.modifyHead Char.toUpper)

theorem modifyHead_toLower_eq_self (h : ∀ c ∈ cs.head?, ¬ c.isUpper) :
    cs.modifyHead Char.toLower = cs := by
  cases cs with
  | nil => rfl
  | cons c rest => rw [List.modifyHead_cons, Char.toLower_eq_of_not_isUpper (h c rfl)]

theorem exists_words_cons (hunderscore : c ≠ '_') (rest : List Char) :
    ∃ w ws, words (c :: rest) = (c.toLower :: w) :: ws := by
  rw [words, if_neg hunderscore]
  split_ifs
  · exact ⟨[], words rest, rfl⟩
  · obtain ⟨w, ws, hws⟩ := List.exists_cons_of_ne_nil (words_ne_nil rest)
    exact ⟨w, ws, by rw [hws, List.modifyHead_cons]⟩

/-- Where no word ends, no capital begins unless it follows another one. -/
theorem not_isUpper_of_not_endsWord {rest : List Char} (halphanum : c.isAlphanum)
    (hcapitals : (c :: rest).IsChain fun c d => c.isUpper → ¬ d.isUpper)
    (hends : ¬ endsWord c rest) : ∀ d ∈ rest.head?, ¬ d.isUpper := by
  intro d hd hupper
  by_cases hc : c.isUpper
  · exact hcapitals.rel_head? hd hc hupper
  · have hsmall : c.isLower || c.isDigit := by
      simpa [Char.isAlphanum, Char.isAlpha, hc] using halphanum
    have hhead : rest.head?.any Char.isUpper := by
      rw [Option.mem_def.mp hd, Option.any_some, hupper]
    exact hends (by rw [endsWord, hsmall, hhead, Bool.and_self])

/-- If no capital follows another one, the words say where the capitals are, but for the first
character. -/
theorem rejoined_words (halphanum : ∀ c ∈ cs, c.isAlphanum)
    (hcapitals : cs.IsChain fun c d => c.isUpper → ¬ d.isUpper) :
    rejoined (words cs) = cs.modifyHead Char.toLower := by
  -- The words of the rest tell all of it but its first character, which is told by whether a word
  -- ends in front of it.
  induction cs with
  | nil => rfl
  | cons c rest ih =>
    have ih := ih (fun d hd => halphanum d (List.mem_cons_of_mem c hd)) hcapitals.tail
    have hunderscore (d : Char) (hd : d ∈ c :: rest) : d ≠ '_' := by
      rintro rfl
      exact absurd (halphanum '_' hd) (by decide)
    rw [words, if_neg (hunderscore c (List.mem_cons_self ..))]
    split_ifs with hends
    · -- The next word begins with a capital.
      cases rest with
      | nil => simp [endsWord] at hends
      | cons d rest =>
        have hupper : d.isUpper := by simpa using (Bool.and_eq_true_iff.mp hends).2
        obtain ⟨w, ws, hws⟩ := exists_words_cons (hunderscore d (by simp)) rest
        rw [hws] at ih ⊢
        have hrest : w ++ ws.flatMap (·.modifyHead Char.toUpper) = rest := by
          simpa [rejoined] using ih
        simp [rejoined, hrest, Char.toUpper_eq_of_not_isLower (Char.not_isLower_of_isUpper hupper)]
    · have hrest : ∀ d ∈ rest.head?, ¬ d.isUpper :=
        not_isUpper_of_not_endsWord (halphanum c (List.mem_cons_self ..)) hcapitals hends
      obtain ⟨w, ws, hws⟩ := List.exists_cons_of_ne_nil (words_ne_nil rest)
      rw [hws, modifyHead_toLower_eq_self hrest, rejoined] at ih
      rw [hws, List.modifyHead_cons, rejoined, List.cons_append, ih, List.modifyHead_cons]

theorem rejoined_guardWords (ws : List (List Char)) : rejoined (guardWords ws) = rejoined ws := by
  rw [guardWords]
  split_ifs with hdigit
  · match ws with
    | (c :: w) :: ws =>
      have hc : c.isDigit := hdigit
      have hlower : ¬ c.isLower := fun hlower =>
        not_isDigit_of_isAlpha (by rw [Char.isAlpha, hlower, Bool.or_true]) hc
      simp [rejoined, Char.toUpper_eq_of_not_isLower hlower]
  · rfl

/-- The words of the identifier say the same as those of the name. -/
theorem rejoined_fieldWords (s : String) :
    rejoined (fieldWords s) = rejoined (words (clean s)) := by
  rw [fieldWords, ← rejoined_guardWords (words (clean s))]
  have hne := (areWords_words_clean s).guardWords.ne_nil
  generalize guardWords (words (clean s)) = ws at hne
  obtain ⟨w, ws, rfl⟩ := List.exists_cons_of_ne_nil hne
  split_ifs <;> simp [rejoined]

/-- A name in camel case is made of its words. -/
theorem CamelCase.rejoined_fieldWords (h : CamelCase s.toList) :
    rejoined (fieldWords s) = s.toList := by
  have hclean : clean s = s.toList := by
    refine (List.map_congr_left fun c hc => ?_).trans (List.map_id _)
    rw [if_pos (by rw [allowed, h.isAlphanum c hc, Bool.true_or]), id]
  rw [Identifier.rejoined_fieldWords, hclean, rejoined_words h.isAlphanum h.capitals,
    modifyHead_toLower_eq_self h.front]

/-- A name in camel case is known by its words. -/
theorem CamelCase.eq_of_fieldWords_eq (hs : CamelCase s.toList) (ht : CamelCase t.toList)
    (h : fieldWords s = fieldWords t) : s = t := by
  rw [← String.toList_inj, ← hs.rejoined_fieldWords, ← ht.rejoined_fieldWords, h]

end CanonicalCwl.Identifier
