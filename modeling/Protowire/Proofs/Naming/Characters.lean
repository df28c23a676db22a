import Mathlib.Logic.Function.Basic
import Protowire.Naming.Ident
import Protowire.Proofs.Naming.Words

/-!
# Proofs/Naming/Characters — what identifiers are made of

Whatever a name is made of, its words are of letters and digits (`isAlphanum_of_mem_words`), and so
**the identifiers of types and modules are of these and underscores**.  No identifier of a module is
a keyword (`moduleIdent_not_keyword`).  Numbers stand behind identifiers in decimal, which tells
them apart (`toDigits_injective`, `repr_injective`).
-/

namespace Protowire.Naming

/-! ## Numbers -/

theorem toDigits_injective : Function.Injective (Nat.toDigits 10) :=
  Function.LeftInverse.injective (g := fun digits => Nat.ofDigitChars 10 digits 0)
    fun _ => Nat.ofDigitChars_ten_toDigits

theorem nat_repr_injective : Function.Injective Nat.repr := fun _ _ h =>
  toDigits_injective (String.ofList_inj.1 (by simpa only [Nat.repr_eq_ofList_toDigits] using h))

theorem isDigit_of_mem_toDigits {n : Nat} : ∀ c ∈ Nat.toDigits 10 n, c.isDigit = true :=
  fun _ => Nat.isDigit_of_mem_toDigits (by decide) (by decide)

/-- A number does not start with a sign. -/
theorem sign_append_ne_repr (text : String) (n : Nat) : "-" ++ text ≠ n.repr := by
  intro h
  have hmem : '-' ∈ Nat.toDigits 10 n := by
    rw [← String.toList_ofList (l := Nat.toDigits 10 n), ← Nat.repr_eq_ofList_toDigits, ← h]
    simp
  exact absurd (isDigit_of_mem_toDigits _ hmem) (by decide)

/-- **Numbers differ in decimal.** -/
theorem repr_injective : Function.Injective Int.repr := by
  intro a b h
  rw [Int.repr_eq_if, Int.repr_eq_if] at h
  split at h <;> split at h
  · have := nat_repr_injective h
    omega
  · exact absurd h.symm (sign_append_ne_repr _ _)
  · exact absurd h (sign_append_ne_repr _ _)
  · have := nat_repr_injective (String.append_right_inj _ |>.1 h)
    omega

/-! ## Letters and digits -/

theorem isAlphanum_iff {c : Char} : c.isAlphanum = true ↔
    (65 ≤ c.val ∧ c.val ≤ 90 ∨ 97 ≤ c.val ∧ c.val ≤ 122) ∨ 48 ≤ c.val ∧ c.val ≤ 57 := by
  delta Char.isAlphanum Char.isAlpha Char.isUpper Char.isLower Char.isDigit
  simp only [Bool.or_eq_true, Bool.and_eq_true, decide_eq_true_eq]
  rfl

theorem isAlphanum_of_isUpper {c : Char} (h : c.isUpper = true) : c.isAlphanum = true :=
  Bool.or_eq_true_iff.2 (.inl (Bool.or_eq_true_iff.2 (.inl h)))

theorem isAlphanum_of_isLower {c : Char} (h : c.isLower = true) : c.isAlphanum = true :=
  Bool.or_eq_true_iff.2 (.inl (Bool.or_eq_true_iff.2 (.inr h)))

theorem isAlphanum_of_isDigit {c : Char} (h : c.isDigit = true) : c.isAlphanum = true :=
  Bool.or_eq_true_iff.2 (.inr h)

theorem isAlphanum_toLower {c : Char} (h : c.isAlphanum = true) : c.toLower.isAlphanum = true := by
  delta Char.toLower
  split
  · rw [isAlphanum_iff]
    grind
  · exact h

theorem isAlphanum_toUpper {c : Char} (h : c.isAlphanum = true) : c.toUpper.isAlphanum = true := by
  delta Char.toUpper
  split
  · rw [isAlphanum_iff]
    grind
  · exact h

/-- A letter or digit without its case is a small letter or a digit. -/
theorem isLower_or_isDigit_toLower {c : Char} (h : c.isAlphanum = true) :
    c.toLower.isLower = true ∨ c.toLower.isDigit = true := by
  rw [isAlphanum_iff] at h
  delta Char.toLower Char.isLower Char.isDigit
  simp only [Bool.and_eq_true, decide_eq_true_eq]
  split <;> grind

theorem isDigit_toLower (c : Char) : c.toLower.isDigit = c.isDigit := by
  delta Char.toLower Char.isDigit
  split <;> grind

theorem isLower_toUpper (c : Char) : c.toUpper.isLower = false := by
  delta Char.toUpper Char.isLower
  split <;> grind

theorem isUpper_toLower (c : Char) : c.toLower.isUpper = false := by
  delta Char.toLower Char.isUpper
  split <;> grind

/-- Without capitals there is nothing to make small. -/
theorem toLower_of_isUpper_eq_false {c : Char} (h : c.isUpper = false) : c.toLower = c := by
  delta Char.isUpper at h
  delta Char.toLower
  split <;> grind

/-- A capital does not depend on the case there was. -/
theorem toUpper_toLower (c : Char) : c.toLower.toUpper = c.toUpper := by
  cases hupper : c.isUpper with
  | false => rw [toLower_of_isUpper_eq_false hupper]
  | true =>
    delta Char.isUpper at hupper
    simp only [decide_eq_true_eq] at hupper
    have hlower : ¬ (c.val ≥ 'a'.val ∧ c.val ≤ 'z'.val) := by grind
    delta Char.toLower Char.toUpper
    rw [dif_neg hlower, dif_pos hupper]
    split
    · apply Char.ext
      grind
    · grind

/-! ## Words put together -/

theorem isAlphanum_of_mem_upperCamel {name : List Char} {c : Char} (h : c ∈ upperCamel name) :
    c.isAlphanum = true := by
  obtain ⟨word, hword, hc⟩ := List.mem_flatMap.1 h
  cases word with
  | nil => exact absurd hc List.not_mem_nil
  | cons first rest =>
    rcases List.mem_cons.1 hc with rfl | hc
    · exact isAlphanum_toUpper (isAlphanum_of_mem_words hword List.mem_cons_self)
    · obtain ⟨d, hd, rfl⟩ := List.mem_map.1 hc
      exact isAlphanum_toLower (isAlphanum_of_mem_words hword (List.mem_cons_of_mem _ hd))

/-- A name in camel case does not start with a small letter. -/
theorem isLower_head?_upperCamel (name : List Char) :
    (upperCamel name).head?.any Char.isLower = false := by
  rw [upperCamel]
  induction words name with
  | nil => rfl
  | cons word words ih =>
    cases word with
    | nil => exact ih
    | cons first rest => exact isLower_toUpper first

/-- What stands in pieces that are put together stands in a piece, or between them. -/
theorem mem_of_mem_intercalate {α : Type} {sep : List α} {pieces : List (List α)} {a : α}
    (h : a ∈ sep.intercalate pieces) : a ∈ sep ∨ ∃ piece ∈ pieces, a ∈ piece := by
  induction pieces with
  | nil => exact absurd h List.not_mem_nil
  | cons piece pieces ih =>
    cases pieces with
    | nil =>
      rw [List.intercalate_singleton] at h
      exact .inr ⟨piece, List.mem_cons_self, h⟩
    | cons next pieces =>
      rw [List.intercalate_cons_cons, List.append_assoc, List.mem_append, List.mem_append] at h
      rcases h with h | h | h
      · exact .inr ⟨piece, List.mem_cons_self, h⟩
      · exact .inl h
      · exact (ih h).imp_right fun ⟨p, hp, ha⟩ => ⟨p, List.mem_cons_of_mem _ hp, ha⟩

/-! ## Identifiers -/

/-- A letter, a digit or an underscore. -/
def IdentChar (c : Char) : Prop := c.isAlphanum = true ∨ c = '_'

instance (c : Char) : Decidable (IdentChar c) :=
  inferInstanceAs (Decidable (c.isAlphanum = true ∨ c = '_'))

instance (text : List Char) : Decidable (∀ c ∈ text, IdentChar c) :=
  List.decidableBAll IdentChar text

/-- A small letter, a digit or an underscore. -/
def SmallChar (c : Char) : Prop := c.isLower = true ∨ c.isDigit = true ∨ c = '_'

instance (c : Char) : Decidable (SmallChar c) :=
  inferInstanceAs (Decidable (c.isLower = true ∨ c.isDigit = true ∨ c = '_'))

theorem SmallChar.identChar {c : Char} (h : SmallChar c) : IdentChar c := by
  rcases h with h | h | h
  · exact .inl (isAlphanum_of_isLower h)
  · exact .inl (isAlphanum_of_isDigit h)
  · exact .inr h

theorem smallChar_of_mem_snake {name : List Char} {c : Char} (h : c ∈ snake name) :
    SmallChar c := by
  rcases mem_of_mem_intercalate h with h | ⟨word, hword, hc⟩
  · exact .inr (.inr (List.mem_singleton.1 h))
  · obtain ⟨word, hmem, rfl⟩ := List.mem_map.1 hword
    obtain ⟨d, hd, rfl⟩ := List.mem_map.1 hc
    exact (isLower_or_isDigit_toLower (isAlphanum_of_mem_words hmem hd)).imp_right .inl

theorem mem_withStart {ident : List Char} {c : Char} (h : c ∈ withStart ident) :
    c = '_' ∨ c ∈ ident := by
  rw [withStart] at h
  split at h
  · exact List.mem_cons.1 h
  · exact .inr h

/-- **Identifiers of types are of letters, digits and underscores.** -/
theorem identChar_of_mem_typeIdent {name : String} {c : Char}
    (h : c ∈ (typeIdent name).toList) : IdentChar c := by
  rw [typeIdent, String.toList_ofList, typeChars] at h
  split at h
  · have hself : "Self_".toList.all (fun c => c.isAlphanum || c == '_') = true := by decide
    simpa [IdentChar] using List.all_eq_true.1 hself c h
  · exact (mem_withStart h).elim .inr fun h => .inl (isAlphanum_of_mem_upperCamel h)

/-- **Identifiers of modules are of small letters, digits and underscores.** -/
theorem smallChar_of_mem_moduleIdent {name : String} {c : Char}
    (h : c ∈ (moduleIdent name).toList) : SmallChar c := by
  rw [moduleIdent] at h
  split at h
  · rw [String.toList_append, String.toList_ofList, List.mem_append] at h
    exact h.elim smallChar_of_mem_snake fun h => .inr (.inr (List.mem_singleton.1 h))
  · rw [String.toList_ofList] at h
    exact smallChar_of_mem_snake h

theorem identChar_of_mem_moduleIdent {name : String} {c : Char}
    (h : c ∈ (moduleIdent name).toList) : IdentChar c :=
  (smallChar_of_mem_moduleIdent h).identChar

theorem smallChar_of_mem_fileModule {name : String} {c : Char}
    (h : c ∈ (fileModule name).toList) : SmallChar c := by
  rw [fileModule, String.toList_ofList] at h
  exact (mem_withStart h).elim (.inr ∘ .inr) smallChar_of_mem_moduleIdent

theorem identChar_of_mem_fileModule {name : String} {c : Char}
    (h : c ∈ (fileModule name).toList) : IdentChar c :=
  (smallChar_of_mem_fileModule h).identChar

/-! ## Keywords -/

/-- The keywords are of small letters, but for one. -/
theorem keyword_start : ∀ keyword ∈ keywords, keyword = "Self" ∨
    keyword.toList.head?.any Char.isLower = true := by decide

theorem underscore_notMem_keyword : ∀ keyword ∈ keywords, '_' ∉ keyword.toList := by decide

/-- An underscore in front makes no keyword. -/
theorem withStart_not_keyword {ident : List Char} (h : String.ofList ident ∉ keywords) :
    String.ofList (withStart ident) ∉ keywords := by
  rw [withStart]
  split
  · intro hkeyword
    have hunderscore := underscore_notMem_keyword _ hkeyword
    rw [String.toList_ofList] at hunderscore
    exact hunderscore List.mem_cons_self
  · exact h

/-- The only keyword in camel case. -/
theorem upperCamel_eq_of_keyword {name : List Char}
    (h : String.ofList (upperCamel name) ∈ keywords) : upperCamel name = "Self".toList := by
  rcases keyword_start _ h with hself | hlower
  · rw [← hself, String.toList_ofList]
  · rw [String.toList_ofList, isLower_head?_upperCamel] at hlower
    exact absurd hlower Bool.false_ne_true

theorem typeIdent_not_keyword (name : String) : typeIdent name ∉ keywords := by
  dsimp only [typeIdent, typeChars]
  split
  · decide
  · rename_i hself
    exact withStart_not_keyword (mt upperCamel_eq_of_keyword hself)

/-- **No identifier of a module is a keyword.** -/
theorem moduleIdent_not_keyword (name : String) : moduleIdent name ∉ keywords := by
  dsimp only [moduleIdent]
  split
  · intro h
    refine underscore_notMem_keyword _ h ?_
    rw [String.toList_append]
    exact List.mem_append_right _ List.mem_cons_self
  · rename_i hno
    exact mt List.contains_iff_mem.2 hno

theorem fileModule_not_keyword (name : String) : fileModule name ∉ keywords :=
  withStart_not_keyword (by rw [String.ofList_toList]; exact moduleIdent_not_keyword _)

end Protowire.Naming
