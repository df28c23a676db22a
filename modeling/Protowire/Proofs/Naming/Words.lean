import Mathlib.Data.List.Basic
import Protowire.Naming.Words

/-!
# Proofs/Naming/Words — what the words of a name are

The words of a name are its letters and digits in the order in which they come
(`flatten_words`), and no word is empty (`ne_nil_of_mem_words`).  **A new word starts where the case
shows one, and nowhere else** (`exists_words_append_iff`), so these facts together say which words a
name has.

The cut goes along the name with the letter before in hand.  What it does at one character is told
by `cutWords_start`, `cutWords_continue` and `cutWords_skip`; each result is one induction with
these.
-/

namespace Protowire.Naming

/-! ## One character -/

section Cut

variable {prev : Option Char} {c : Char} {rest : List Char}

/-- A letter that starts a word ends the word before it. -/
theorem cutWords_start (hc : c.isAlphanum = true) (hstart : startsWord prev c rest.head? = true) :
    cutWords prev (c :: rest) = ([], (c :: (cutWords (some c) rest).1) :: (cutWords (some c) rest).2)
    := by
  rw [cutWords, if_pos hc]
  exact if_pos hstart

/-- Any other letter goes on with the word. -/
theorem cutWords_continue (hc : c.isAlphanum = true)
    (hgo : ¬ startsWord prev c rest.head? = true) :
    cutWords prev (c :: rest) = (c :: (cutWords (some c) rest).1, (cutWords (some c) rest).2) := by
  rw [cutWords, if_pos hc]
  exact if_neg hgo

/-- What is no letter or digit ends the word before it. -/
theorem cutWords_skip (hc : ¬ c.isAlphanum = true) :
    cutWords prev (c :: rest) = ([], words rest) := by
  rw [cutWords, if_neg hc, words]

end Cut

/-- A name starts with a new word. -/
theorem cutWords_none (name : List Char) : cutWords none name = ([], words name) := by
  cases name with
  | nil => rfl
  | cons c rest =>
    by_cases hc : c.isAlphanum = true
    · rw [words, cutWords_start hc rfl]
    · rw [words, cutWords_skip hc]

/-! ## No letter is lost -/

/-- What goes on with a word, and the words after it, are the letters and digits. -/
theorem append_flatten_cutWords (prev : Option Char) (name : List Char) :
    (cutWords prev name).1 ++ (cutWords prev name).2.flatten = name.filter Char.isAlphanum := by
  induction name generalizing prev with
  | nil => rfl
  | cons c rest ih =>
    by_cases hc : c.isAlphanum = true
    · rw [List.filter_cons_of_pos hc, ← ih (some c)]
      by_cases hstart : startsWord prev c rest.head? = true
      · rw [cutWords_start hc hstart]
        rfl
      · rw [cutWords_continue hc hstart]
        rfl
    · rw [List.filter_cons_of_neg hc, ← ih none, cutWords_skip hc, cutWords_none]

/-- **The words of a name are its letters and digits.** -/
theorem flatten_words (name : List Char) : (words name).flatten = name.filter Char.isAlphanum := by
  have hletters := append_flatten_cutWords none name
  rwa [cutWords_none] at hletters

/-- **Words are of letters and digits.** -/
theorem isAlphanum_of_mem_words {name word : List Char} (hword : word ∈ words name) {c : Char}
    (hc : c ∈ word) : c.isAlphanum = true := by
  have hmem : c ∈ (words name).flatten := List.mem_flatten_of_mem hword hc
  rw [flatten_words] at hmem
  exact List.of_mem_filter hmem

theorem ne_nil_of_mem_cutWords (prev : Option Char) (name : List Char) :
    ∀ word ∈ (cutWords prev name).2, word ≠ [] := by
  induction name generalizing prev with
  | nil => exact fun _ h => absurd h List.not_mem_nil
  | cons c rest ih =>
    by_cases hc : c.isAlphanum = true
    · by_cases hstart : startsWord prev c rest.head? = true
      · rw [cutWords_start hc hstart]
        exact List.forall_mem_cons.2 ⟨List.cons_ne_nil _ _, ih (some c)⟩
      · rw [cutWords_continue hc hstart]
        exact ih (some c)
    · rw [cutWords_skip hc]
      exact ih none

/-- **No word is empty.** -/
theorem ne_nil_of_mem_words {name word : List Char} (hword : word ∈ words name) : word ≠ [] :=
  ne_nil_of_mem_cutWords none name word hword

/-! ## Where words start -/

/-- The letter or digit right before what follows the text, which itself follows `prev`. -/
def letterBefore (prev : Option Char) : List Char → Option Char
  | [] => prev
  | c :: front => letterBefore (if c.isAlphanum then some c else none) front

theorem letterBefore_cons (prev : Option Char) (c : Char) (front : List Char) :
    letterBefore prev (c :: front) = (c :: front).getLast?.filter Char.isAlphanum := by
  induction front generalizing prev c with
  | nil => rfl
  | cons d front ih => rw [letterBefore, ih, List.getLast?_cons_cons]

theorem letterBefore_none (front : List Char) :
    letterBefore none front = front.getLast?.filter Char.isAlphanum := by
  cases front with
  | nil => rfl
  | cons c front => exact letterBefore_cons none c front

/-- The letters before `c` are the rest of a word and whole words just when `c` starts one. -/
theorem exists_cutWords_append_iff {c : Char} (hc : c.isAlphanum = true) (prev : Option Char)
    (front rest : List Char) :
    (∃ before after, (cutWords prev (front ++ c :: rest)).2 = before ++ after ∧
        (cutWords prev (front ++ c :: rest)).1 ++ before.flatten = front.filter Char.isAlphanum) ↔
      startsWord (letterBefore prev front) c rest.head? = true := by
  induction front generalizing prev with
  | nil =>
    rw [List.nil_append, letterBefore]
    by_cases hstart : startsWord prev c rest.head? = true
    · rw [cutWords_start hc hstart]
      exact iff_of_true ⟨[], _, rfl, rfl⟩ hstart
    · rw [cutWords_continue hc hstart]
      exact iff_of_false (fun ⟨_, _, _, hletters⟩ => List.cons_ne_nil _ _ hletters) hstart
  | cons d front ih =>
    rw [List.cons_append, letterBefore]
    by_cases hd : d.isAlphanum = true
    · rw [if_pos hd, ← ih (some d), List.filter_cons_of_pos hd]
      by_cases hstart : startsWord prev d (front ++ c :: rest).head? = true
      -- The word that `d` starts is the first of the whole words before `c`.
      · rw [cutWords_start hd hstart]
        constructor
        · rintro ⟨_ | ⟨_, before⟩, after, hwords, hletters⟩
          · exact absurd hletters.symm (List.cons_ne_nil _ _)
          · obtain ⟨rfl, hrest⟩ := List.cons.inj hwords
            exact ⟨before, after, hrest, (List.cons.inj hletters).2⟩
        · rintro ⟨before, after, hwords, hletters⟩
          exact ⟨_ :: before, after, congrArg (_ :: ·) hwords, congrArg (d :: ·) hletters⟩
      · rw [cutWords_continue hd hstart]
        simp only [List.cons_append, List.cons.injEq, true_and]
    · rw [if_neg hd, ← ih none, List.filter_cons_of_neg hd, cutWords_skip hd, cutWords_none]

/-- **A word starts exactly where the rule says.**  The letters and digits before `c` are whole
words just when a word starts at `c`. -/
theorem exists_words_append_iff {c : Char} (hc : c.isAlphanum = true) (front rest : List Char) :
    (∃ before after, words (front ++ c :: rest) = before ++ after ∧
        before.flatten = front.filter Char.isAlphanum) ↔
      startsWord (front.getLast?.filter Char.isAlphanum) c rest.head? = true := by
  have hiff := exists_cutWords_append_iff hc none front rest
  rwa [cutWords_none, letterBefore_none] at hiff

end Protowire.Naming
