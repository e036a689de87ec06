import CanonicalCwl.Proofs.Identifier

/-!
# Legal Identifiers

The identifier of a field stands in Rust source as it is, and has to be legal there. It is spelled
in small letters, digits and underscores, and no digit comes first. If this gives a keyword, the
identifier is written raw, or with an underscore after it where the keyword may not be written raw.
Since the spelling keeps every letter and digit of the name, there is more in it than an underscore
if the name has one of them.

- `Identifier.Legal`: what may stand in Rust source as the identifier of a field.
- `Identifier.map_toLower_sublist_spelled`: nothing of a name is lost in its spelling.
- `Identifier.legal_snakeCase_iff_isWord`: keywords are kept clear of.
- `Identifier.legal_snakeCase_iff`: the names whose identifiers are legal.
-/

namespace CanonicalCwl.Identifier

variable {c : Char} {cs : List Char} {s word : String}

/-! ## The identifiers of the language -/

/-- The keywords of the language, with those that are kept for later. -/
def keywords : List String :=
  ["as", "async", "await", "break", "const", "continue", "crate", "dyn", "else", "enum", "extern",
    "false", "fn", "for", "gen", "if", "impl", "in", "let", "loop", "match", "mod", "move", "mut",
    "pub", "ref", "return", "self", "Self", "static", "struct", "super", "trait", "true", "try",
    "type", "unsafe", "use", "where", "while", "abstract", "become", "box", "do", "final", "macro",
    "override", "priv", "typeof", "unsized", "virtual", "yield"]

/-- The keywords that may not be written as raw identifiers. -/
def neverRaw : List String := ["crate", "self", "super", "Self"]

/-- A word of small letters, digits and underscores. There is no digit in front, and it is not a
single underscore. -/
@[mk_iff]
structure IsWord (word : String) : Prop where
  small : ∀ c ∈ word.toList, c.isLower ∨ c.isDigit ∨ c = '_'
  front : ∀ c ∈ word.toList.head?, ¬ c.isDigit
  ne_empty : word ≠ ""
  ne_underscore : word ≠ "_"

/-- A word is a legal identifier if it is no keyword, and a keyword if it is marked as raw. -/
inductive Legal : String → Prop
  | plain {word : String} (h : IsWord word) (hkeyword : word ∉ keywords) : Legal word
  | raw {word : String} (hkeyword : word ∈ keywords) (hraw : word ∉ neverRaw) :
      Legal ("r#" ++ word)

theorem rawWords_eq_filter : rawWords = keywords.filter (· ∉ neverRaw) := by
  simp [rawWords, keywords, neverRaw]

/-- The reserved words that are written raw are the keywords that may be. -/
theorem mem_rawWords_iff : word ∈ rawWords ↔ word ∈ keywords ∧ word ∉ neverRaw := by
  rw [rawWords_eq_filter, List.mem_filter, decide_eq_true_eq]

/-- No keyword is left out of the reserved words, but for the one with a capital. -/
theorem reserved_of_mem_keywords (h : IsWord word) (hkeyword : word ∈ keywords) :
    word ∈ rawWords ∨ word ∈ pathWords := by
  have hnever : ∀ word ∈ neverRaw, IsWord word → word ∈ pathWords := by
    simp [neverRaw, pathWords, isWord_iff]
  by_cases hraw : word ∈ neverRaw
  · exact .inr (hnever word hraw h)
  · exact .inl (mem_rawWords_iff.mpr ⟨hkeyword, hraw⟩)

/-- With an underscore after it, a reserved word that may not be written raw is no keyword. -/
theorem append_notMem_keywords (h : word ∈ pathWords) : word ++ "_" ∉ keywords := by
  have hall : ∀ word ∈ pathWords, word ++ "_" ∉ keywords := by simp [pathWords, keywords]
  exact hall word h

/-- A word with an underscore after it is a word. -/
theorem IsWord.append_underscore (h : IsWord word) : IsWord (word ++ "_") where
  small c hc := by
    rw [String.toList_append, List.mem_append] at hc
    exact hc.elim (h.small c) fun hc => .inr (.inr (List.mem_singleton.mp hc))
  front c hc := by
    have hne : word.toList ≠ [] := fun hnil => h.ne_empty (String.toList_eq_nil_iff.mp hnil)
    rw [String.toList_append, List.head?_append_of_ne_nil _ hne] at hc
    exact h.front c hc
  ne_empty := by simp
  ne_underscore := by simpa using h.ne_empty

/-! ## The spelling of a name -/

/-- The spelling of a name, as far as it has not been compared with the reserved words. -/
def spelled (s : String) : String := String.ofList (guardDigit (breakWords false (clean s)))

theorem small_toLower (h : c.isAlphanum) : c.toLower.isLower ∨ c.toLower.isDigit := by
  rw [Char.isLower_toLower_eq_isAlpha]
  simpa [Char.isAlphanum, Char.isAlpha_toLower_eq_isAlpha] using isAlphanum_toLower h

/-- A name stays as it is, or an underscore is put in front of it. -/
theorem guardDigit_cases (cs : List Char) :
    (guardDigit cs = cs ∧ ∀ c ∈ cs.head?, ¬ c.isDigit) ∨ guardDigit cs = '_' :: cs := by
  cases cs with
  | nil => exact .inl ⟨rfl, nofun⟩
  | cons c rest =>
    rw [guardDigit]
    split_ifs with hdigit
    · exact .inr rfl
    · refine .inl ⟨rfl, fun d hd => ?_⟩
      obtain rfl := Option.some.inj hd
      exact hdigit

theorem eq_or_mem_of_mem_guardDigit (h : c ∈ guardDigit cs) : c = '_' ∨ c ∈ cs := by
  rcases guardDigit_cases cs with ⟨heq, -⟩ | heq <;> rw [heq] at h
  · exact .inr h
  · exact List.mem_cons.mp h

theorem not_isDigit_of_mem_head?_guardDigit (h : c ∈ (guardDigit cs).head?) : ¬ c.isDigit := by
  rcases guardDigit_cases cs with ⟨heq, hhead⟩ | heq <;> rw [heq] at h
  · exact hhead c h
  · obtain rfl := Option.some.inj h
    decide

theorem sublist_guardDigit (cs : List Char) : cs.Sublist (guardDigit cs) := by
  rcases guardDigit_cases cs with ⟨heq, -⟩ | heq <;> rw [heq]
  exact List.sublist_cons_self '_' cs

/-- A spelling is in small letters, digits and underscores. -/
theorem small_of_mem_spelled (h : c ∈ (spelled s).toList) :
    c.isLower ∨ c.isDigit ∨ c = '_' := by
  rw [spelled, String.toList_ofList, breakWords_eq_intercalate] at h
  rcases eq_or_mem_of_mem_guardDigit h with heq | h
  · exact .inr (.inr heq)
  rcases eq_or_exists_of_mem_intercalate h with heq | ⟨w, hw, h⟩
  · exact .inr (.inr heq)
  -- The character stands in a word, and there it is the small one of a letter or a digit.
  obtain ⟨d, hd, hunderscore, rfl⟩ := exists_of_mem_words hw h
  exact (small_toLower (isAlphanum_of_mem_clean hd hunderscore)).imp_right .inl

theorem map_toLower_sublist_breakWords (afterSmall : Bool) (cs : List Char) :
    (cs.map Char.toLower).Sublist (breakWords afterSmall cs) := by
  induction cs generalizing afterSmall with
  | nil => exact .slnil
  | cons c rest ih =>
    rw [List.map_cons, breakWords]
    -- A break is all that may be put in before the character.
    split_ifs with hupper hbreak
    · exact ((ih false).cons_cons c.toLower).cons '_'
    · exact (ih false).cons_cons c.toLower
    · rw [Char.toLower_eq_of_not_isUpper hupper]
      exact (ih _).cons_cons c

/-- All characters of a name are there in its spelling, in small letters and in order. -/
theorem map_toLower_sublist_spelled (s : String) :
    ((clean s).map Char.toLower).Sublist (spelled s).toList := by
  rw [spelled, String.toList_ofList]
  exact (map_toLower_sublist_breakWords false _).trans (sublist_guardDigit _)

/-- A letter or a digit of a name is not lost in its spelling. -/
theorem toLower_mem_spelled (hc : c ∈ s.toList) (halphanum : c.isAlphanum) :
    c.toLower ∈ (spelled s).toList := by
  have hclean : c ∈ clean s :=
    List.mem_map.mpr ⟨c, hc, if_pos (by rw [allowed, halphanum, Bool.true_or])⟩
  exact (map_toLower_sublist_spelled s).subset (List.mem_map_of_mem hclean)

theorem length_le_length_spelled (s : String) : s.length ≤ (spelled s).length := by
  have hlength := (map_toLower_sublist_spelled s).length_le
  rwa [List.length_map, clean, List.length_map, String.length_toList, String.length_toList]
    at hlength

/-- The spelling of a name is a word unless there is nothing in it but one underscore. -/
theorem isWord_spelled_iff_ne (s : String) :
    IsWord (spelled s) ↔ spelled s ≠ "" ∧ spelled s ≠ "_" := by
  refine ⟨fun h => ⟨h.ne_empty, h.ne_underscore⟩, fun ⟨hempty, hunderscore⟩ => ?_⟩
  refine ⟨fun c => small_of_mem_spelled, fun c hc => ?_, hempty, hunderscore⟩
  rw [spelled, String.toList_ofList] at hc
  exact not_isDigit_of_mem_head?_guardDigit hc

theorem spelled_ne_of_isAlphanum (hc : c ∈ s.toList) (halphanum : c.isAlphanum) :
    spelled s ≠ "" ∧ spelled s ≠ "_" := by
  have hne (t : String) (ht : ∀ c ∈ t.toList, ¬ c.isAlphanum) : spelled s ≠ t := by
    rintro rfl
    exact ht _ (toLower_mem_spelled hc halphanum) (isAlphanum_toLower halphanum)
  have hunderscore : ∀ c ∈ "_".toList, ¬ c.isAlphanum := List.forall_mem_singleton.mpr (by decide)
  exact ⟨hne "" (by simp), hne "_" hunderscore⟩

theorem spelled_ne_of_two_le_length (h : 2 ≤ s.length) : spelled s ≠ "" ∧ spelled s ≠ "_" := by
  have hne (t : String) (ht : t.length < 2) : spelled s ≠ t := by
    rintro rfl
    exact absurd (h.trans (length_le_length_spelled s)) (Nat.not_le_of_lt ht)
  exact ⟨hne "" (by decide), hne "_" (by decide)⟩

/-- Of a short name without a letter or a digit, no more than an underscore is left. -/
theorem spelled_of_not_isAlphanum (halphanum : ∀ c ∈ s.toList, ¬ c.isAlphanum)
    (hlength : s.length < 2) : spelled s = "" ∨ spelled s = "_" := by
  rw [← String.length_toList] at hlength
  rw [spelled, clean]
  generalize s.toList = cs at halphanum hlength
  match cs with
  | [] => exact .inl rfl
  | [c] =>
    have hclean : (if allowed c then c else '_') = '_' := by
      simp [allowed, halphanum c (List.mem_singleton_self c)]
    exact .inr (by rw [List.map_singleton, hclean]; rfl)
  | _ :: _ :: _ => simp at hlength

/-- The spelling of a name is a word if there is a letter or a digit in the name, and else if the
name is long enough to be spelled in several underscores. -/
theorem isWord_spelled_iff (s : String) :
    IsWord (spelled s) ↔ (∃ c ∈ s.toList, c.isAlphanum) ∨ 2 ≤ s.length := by
  rw [isWord_spelled_iff_ne]
  constructor
  · rintro ⟨hempty, hunderscore⟩
    by_contra hnot
    obtain ⟨halphanum, hlength⟩ := not_or.mp hnot
    have hnone : ∀ c ∈ s.toList, ¬ c.isAlphanum := fun c hc h => halphanum ⟨c, hc, h⟩
    exact (spelled_of_not_isAlphanum hnone (Nat.lt_of_not_le hlength)).elim hempty hunderscore
  · rintro (⟨c, hc, halphanum⟩ | hlength)
    · exact spelled_ne_of_isAlphanum hc halphanum
    · exact spelled_ne_of_two_le_length hlength

/-! ## The identifier of a name -/

/-- What is spelled is no raw identifier. -/
theorem spelled_ne_raw (s word : String) : spelled s ≠ "r#" ++ word := by
  intro heq
  have hmark : '#' ∈ (spelled s).toList := by simp [heq]
  exact absurd (small_of_mem_spelled hmark) (by decide)

/-- A name has a legal identifier exactly if its spelling is a word. -/
theorem legal_snakeCase_iff_isWord (s : String) : Legal (snakeCase s) ↔ IsWord (spelled s) := by
  have hcases : snakeCase s = if spelled s ∈ pathWords then spelled s ++ "_"
      else if spelled s ∈ rawWords then "r#" ++ spelled s else spelled s := rfl
  -- A reserved word is neither empty nor an underscore.
  have hreserved (h : spelled s ∈ pathWords ++ rawWords) : IsWord (spelled s) :=
    (isWord_spelled_iff_ne s).mpr ⟨ne_of_mem_of_not_mem h (by simp [pathWords, rawWords]),
      ne_of_mem_of_not_mem h (by simp [pathWords, rawWords])⟩
  rw [hcases]
  split_ifs with hpath hraw
  · have hword := hreserved (List.mem_append_left _ hpath)
    exact iff_of_true (.plain hword.append_underscore (append_notMem_keywords hpath)) hword
  · obtain ⟨hkeyword, hnever⟩ := mem_rawWords_iff.mp hraw
    exact iff_of_true (.raw hkeyword hnever) (hreserved (List.mem_append_right _ hraw))
  · constructor
    · intro h
      -- No spelling looks like a raw identifier, so that it is legal as a word.
      have hne := spelled_ne_raw s
      generalize spelled s = word at h hne
      cases h with
      | plain h => exact h
      | raw => exact absurd rfl (hne _)
    · intro h
      refine .plain h fun hkeyword => ?_
      exact (reserved_of_mem_keywords h hkeyword).elim hraw hpath

/-- The identifier of a field is legal if there is a letter or a digit in the name of the field. Of
the other names, exactly those of at least two characters have a legal identifier. -/
theorem legal_snakeCase_iff (s : String) :
    Legal (snakeCase s) ↔ (∃ c ∈ s.toList, c.isAlphanum) ∨ 2 ≤ s.length := by
  rw [legal_snakeCase_iff_isWord, isWord_spelled_iff]

/-- A keyword is marked, or it has an underscore after it; a single underscore is left as it is. -/
example : snakeCase "type" = "r#type" ∧ snakeCase "Self" = "self_" ∧ snakeCase "-" = "_" := by
  decide +kernel

end CanonicalCwl.Identifier
