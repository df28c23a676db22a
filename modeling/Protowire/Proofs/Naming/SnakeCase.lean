import Protowire.Proofs.Naming.Characters

/-!
# Proofs/Naming/SnakeCase — a name in snake case keeps its words

Between small letters and digits no word starts, so words of these with underscores between them are
cut into themselves again (`words_intercalate`).  A name in snake case is such a row: **its words are
those of the name, in small letters** (`words_snake`), and whatever is made of the words of a name
without asking for their case is made of the name in snake case too.
-/

namespace Protowire.Naming

/-! ## Words without capitals -/

/-- A word of small letters and digits. -/
structure SmallWord (word : List Char) : Prop where
  ne_nil : word ≠ []
  chars : ∀ c ∈ word, c.isAlphanum = true ∧ c.isUpper = false

/-- What stands behind the end of a word: nothing, or something that is no letter or digit. -/
def Breaks (rest : List Char) : Prop := ∀ c ∈ rest.head?, ¬ c.isAlphanum = true

theorem words_cons_of_not_isAlphanum {c : Char} (hc : ¬ c.isAlphanum = true) (rest : List Char) :
    words (c :: rest) = words rest := by
  rw [words, cutWords_skip hc]

theorem cutWords_of_breaks {rest : List Char} (h : Breaks rest) (prev : Option Char) :
    cutWords prev rest = ([], words rest) := by
  cases rest with
  | nil => rfl
  | cons c rest => rw [cutWords_skip (h c rfl), words_cons_of_not_isAlphanum (h c rfl)]

/-- Only a capital starts a word within a row of letters and digits. -/
theorem not_startsWord_of_not_isUpper {p c : Char} (next : Option Char) (h : c.isUpper = false) :
    ¬ startsWord (some p) c next = true := by
  simp [startsWord, h]

/-- Small letters and digits go on with the word to its end. -/
theorem cutWords_append {word rest : List Char}
    (hword : ∀ c ∈ word, c.isAlphanum = true ∧ c.isUpper = false) (hrest : Breaks rest) (p : Char) :
    cutWords (some p) (word ++ rest) = (word, words rest) := by
  induction word generalizing p with
  | nil => exact cutWords_of_breaks hrest (some p)
  | cons c word ih =>
    obtain ⟨⟨hc, hsmall⟩, hword⟩ := List.forall_mem_cons.1 hword
    rw [List.cons_append, cutWords_continue hc (not_startsWord_of_not_isUpper _ hsmall),
      ih hword c]

/-- **A word without capitals is the first word** of what starts with it, if something stands
between it and the next one. -/
theorem words_append {word rest : List Char} (hword : SmallWord word) (hrest : Breaks rest) :
    words (word ++ rest) = word :: words rest := by
  cases word with
  | nil => exact absurd rfl hword.ne_nil
  | cons c word =>
    obtain ⟨⟨hc, -⟩, hchars⟩ := List.forall_mem_cons.1 hword.chars
    rw [List.cons_append, words, cutWords_start hc rfl, cutWords_append hchars hrest]

/-- **Words without capitals are read back** when they are written with underscores between them. -/
theorem words_intercalate {pieces : List (List Char)} (h : ∀ word ∈ pieces, SmallWord word) :
    words (['_'].intercalate pieces) = pieces := by
  induction pieces with
  | nil => rfl
  | cons word pieces ih =>
    obtain ⟨hword, hpieces⟩ := List.forall_mem_cons.1 h
    cases pieces with
    | nil =>
      have hlast : words (word ++ []) = [word] := words_append hword nofun
      rw [List.append_nil] at hlast
      rwa [List.intercalate_singleton]
    | cons next pieces =>
      have hbreaks : Breaks ('_' :: ['_'].intercalate (next :: pieces)) := by
        rintro c ⟨⟩
        decide
      rw [List.intercalate_cons_cons, List.append_assoc, List.singleton_append,
        words_append hword hbreaks, words_cons_of_not_isAlphanum (by decide), ih hpieces]

/-! ## Snake case -/

theorem smallWord_of_mem_words {name word : List Char} (h : word ∈ words name) :
    SmallWord (word.map Char.toLower) where
  ne_nil := mt List.map_eq_nil_iff.1 (ne_nil_of_mem_words h)
  chars := by
    rw [List.forall_mem_map]
    intro c hc
    exact ⟨isAlphanum_toLower (isAlphanum_of_mem_words h hc), isUpper_toLower c⟩

/-- **The words of a name in snake case are those of the name, in small letters.** -/
theorem words_snake (name : List Char) :
    words (snake name) = (words name).map fun word => word.map Char.toLower :=
  words_intercalate (List.forall_mem_map.2 fun _ => smallWord_of_mem_words)

theorem map_toLower_map_toLower (word : List Char) :
    (word.map Char.toLower).map Char.toLower = word.map Char.toLower := by
  rw [List.map_map]
  exact List.map_congr_left fun c _ => toLower_of_isUpper_eq_false (isUpper_toLower c)

/-- Capitals in front do not depend on the case there was. -/
theorem capitalize_map_toLower (word : List Char) :
    capitalize (word.map Char.toLower) = capitalize word := by
  cases word with
  | nil => rfl
  | cons c word =>
    rw [List.map_cons, capitalize, capitalize, toUpper_toLower,
      map_toLower_map_toLower]

/-- **A name in snake case stays as it is.** -/
theorem snake_snake (name : List Char) : snake (snake name) = snake name := by
  rw [snake, words_snake, List.map_map]
  exact congrArg _ (List.map_congr_left fun word _ => map_toLower_map_toLower word)

/-- **Camel case can be made of snake case.** -/
theorem upperCamel_snake (name : List Char) : upperCamel (snake name) = upperCamel name := by
  rw [upperCamel, words_snake, List.flatMap_map]
  exact List.flatMap_congr fun word _ => capitalize_map_toLower word

/-- **The words of a name lose nothing, and snake case keeps them.**  No word is empty, all are of
letters and digits of ASCII, and together they are those of the name in the order in which they
come; they part where the rule for new words says so and nowhere else.  In snake case a name has the
same words in small letters, so that it stays as it is when it is written in snake case again, and
its camel case is that of the name. -/
theorem words_kept_in_snake_case (name : List Char) :
    (∀ word ∈ words name, word ≠ [] ∧ ∀ c ∈ word, c.isAlphanum = true) ∧
    (words name).flatten = name.filter Char.isAlphanum ∧
    (∀ front c rest, name = front ++ c :: rest → c.isAlphanum = true →
      ((∃ before after, words name = before ++ after ∧
          before.flatten = front.filter Char.isAlphanum) ↔
        startsWord (front.getLast?.filter Char.isAlphanum) c rest.head? = true)) ∧
    words (snake name) = (words name).map (fun word => word.map Char.toLower) ∧
    snake (snake name) = snake name ∧
    upperCamel (snake name) = upperCamel name := by
  refine ⟨fun word hword => ⟨ne_nil_of_mem_words hword, fun c => isAlphanum_of_mem_words hword⟩,
    flatten_words name, ?_, words_snake name, snake_snake name, upperCamel_snake name⟩
  rintro front c rest rfl hc
  exact exists_words_append_iff hc front rest

/-- An acronym behind a letter that is none of ASCII: its last capital starts the next word. -/
theorem words_kept_in_snake_case_acronym :
    ("HTTP".toList ∈ words "9Livesé_HTTPServer".toList ∧ "HTTP".toList ≠ [] ∧
      ('P' ∈ "HTTP".toList ∧ 'P'.isAlphanum = true)) ∧
    ("9Livesé_HTTPServer".toList = "9Livesé_HTTP".toList ++ 'S' :: "erver".toList ∧
      'S'.isAlphanum = true ∧
      ∃ before after, words "9Livesé_HTTPServer".toList = before ++ after ∧
        before.flatten = "9Livesé_HTTP".toList.filter Char.isAlphanum) ∧
    snake "9Livesé_HTTPServer".toList = "9_lives_http_server".toList ∧
    snake (snake "9Livesé_HTTPServer".toList) = snake "9Livesé_HTTPServer".toList := by
  obtain ⟨hword, -, hstart, -, hsnake, -⟩ := words_kept_in_snake_case "9Livesé_HTTPServer".toList
  have hmem : "HTTP".toList ∈ words "9Livesé_HTTPServer".toList := by decide
  have hP : 'P' ∈ "HTTP".toList := by decide
  have hsplit : "9Livesé_HTTPServer".toList = "9Livesé_HTTP".toList ++ 'S' :: "erver".toList := by
    decide
  obtain ⟨hne, hchars⟩ := hword _ hmem
  exact ⟨⟨hmem, hne, hP, hchars _ hP⟩,
    ⟨hsplit, by decide, (hstart _ _ _ hsplit (by decide)).2 (by decide)⟩, by decide, hsnake⟩

end Protowire.Naming
