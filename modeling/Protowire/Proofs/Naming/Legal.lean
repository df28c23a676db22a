import Mathlib.Data.List.Basic
import Protowire.Proofs.Naming.Characters

/-!
# Proofs/Naming/Legal — which names have legal identifiers

An identifier is legal when it is of letters, digits and underscores and does not start with a
digit, and when it is neither an underscore alone nor a keyword (`LegalIdent`).  The words of a name
are its letters and digits in the order in which they come (`flatten_words`), so the first of these
is what an identifier starts with.  **A name with a letter or a digit has a legal identifier**, as a
type, as a field, as the module of a file or as an enum value; of a name without, an underscore is
left.

The module of a message is the exception: nothing is put in front of it, so a name whose first
letter or digit is a digit gives it no legal identifier (`legalIdent_moduleIdent_iff`).
-/

namespace Protowire.Naming

/-! ## Legal identifiers -/

/-- The words that the generated language has a use for. -/
def strictKeywords : List String :=
  ["as", "async", "await", "break", "const", "continue", "crate", "dyn", "else", "enum", "extern",
    "false", "fn", "for", "if", "impl", "in", "let", "loop", "match", "mod", "move", "mut", "pub",
    "ref", "return", "self", "Self", "static", "struct", "super", "trait", "true", "type", "unsafe",
    "use", "where", "while"]

/-- The words that the generated language keeps for later. -/
def reservedKeywords : List String :=
  ["abstract", "become", "box", "do", "final", "gen", "macro", "override", "priv", "try", "typeof",
    "unsized", "virtual", "yield"]

/-- A keyword, in use or kept for later. -/
def IsKeyword (word : String) : Prop := word ∈ strictKeywords ∨ word ∈ reservedKeywords

/-- The keywords that stand for a place in a path.  They stay what they are as raw identifiers. -/
def placeKeywords : List String := ["crate", "self", "super", "Self"]

/-- An identifier that may be declared: of letters, digits and underscores, with no digit in front,
neither an underscore alone nor a keyword. -/
structure LegalIdent (ident : String) : Prop where
  chars : ∀ c ∈ ident.toList, IdentChar c
  start : ∃ c, ident.toList.head? = some c ∧ c.isDigit = false
  notLone : ident ≠ "_"
  notKeyword : ¬ IsKeyword ident

/-- An identifier that a field may have: a legal one, or a keyword that may be raw, written raw. -/
def LegalFieldIdent (ident : String) : Prop :=
  LegalIdent ident ∨ ∃ word, IsKeyword word ∧ word ∉ placeKeywords ∧ ident = "r#" ++ word

theorem mem_keywords_iff {word : String} : word ∈ keywords ↔ IsKeyword word := by
  have hperm : keywords.Perm (strictKeywords ++ reservedKeywords) := by decide +kernel
  rw [hperm.mem_iff, List.mem_append, IsKeyword]

theorem mem_unrawableKeywords_iff {word : String} :
    word ∈ unrawableKeywords ↔ word ∈ placeKeywords :=
  List.Perm.mem_iff (by decide)

/-- **What starts well is legal with more behind it**, if there is an underscore in that. -/
theorem legalIdent_append {ident tail : String} (hchars : ∀ c ∈ ident.toList, IdentChar c)
    (hstart : ∃ c, ident.toList.head? = some c ∧ c.isDigit = false)
    (htail : ∀ c ∈ tail.toList, IdentChar c) (hunderscore : '_' ∈ tail.toList) :
    LegalIdent (ident ++ tail) := by
  obtain ⟨c, hhead, hc⟩ := hstart
  have hne : ident.toList ≠ [] := fun hnil => by rw [hnil] at hhead; cases hhead
  exact
    { chars := fun d hd => by
        rw [String.toList_append, List.mem_append] at hd
        exact hd.elim (hchars d) (htail d)
      start := ⟨c, by rw [String.toList_append, List.head?_append_of_ne_nil _ hne, hhead], hc⟩
      notLone := fun hlone => by
        have hlength := congrArg List.length (String.toList_inj.2 hlone)
        have hident := List.length_pos_iff.2 hne
        have htail := List.length_pos_of_mem hunderscore
        rw [String.toList_append, List.length_append] at hlength
        change _ = 1 at hlength
        omega
      notKeyword := fun hkeyword => by
        refine underscore_notMem_keyword _ (mem_keywords_iff.2 hkeyword) ?_
        rw [String.toList_append]
        exact List.mem_append_right _ hunderscore }

/-- Only identifiers that are of other characters may be raw. -/
theorem legalFieldIdent_iff {ident : String} (hchars : ∀ c ∈ ident.toList, IdentChar c) :
    LegalFieldIdent ident ↔ LegalIdent ident := by
  refine ⟨fun h => h.resolve_right ?_, .inl⟩
  rintro ⟨word, -, -, rfl⟩
  have hsharp : '#' ∈ ("r#" ++ word).toList := by
    rw [String.toList_append]
    exact List.mem_append_left _ (List.mem_cons_of_mem _ List.mem_cons_self)
  exact absurd (hchars _ hsharp) (by decide)

/-! ## First characters -/

/-- A letter or a digit is in the text. -/
def HasLetterOrDigit (text : String) : Prop := ∃ c ∈ text.toList, c.isAlphanum = true

instance (text : String) : Decidable (HasLetterOrDigit text) :=
  decidable_of_iff (text.toList.any Char.isAlphanum = true) List.any_eq_true

/-- A name has no words and no letter or digit, or its first word starts with its first letter or
digit. -/
theorem words_cases (name : List Char) :
    words name = [] ∧ name.find? Char.isAlphanum = none ∨
    ∃ c word rest, words name = (c :: word) :: rest ∧ name.find? Char.isAlphanum = some c := by
  have hflatten := flatten_words name
  rw [← List.head?_filter, ← hflatten]
  cases hwords : words name with
  | nil => exact .inl ⟨rfl, rfl⟩
  | cons word rest =>
    cases word with
    | nil =>
      have hmem : [] ∈ words name := hwords ▸ List.mem_cons_self
      exact absurd rfl (ne_nil_of_mem_words hmem)
    | cons c word => exact .inr ⟨c, word, rest, rfl, rfl⟩

theorem head?_upperCamel (name : List Char) :
    (upperCamel name).head? = (name.find? Char.isAlphanum).map Char.toUpper := by
  rcases words_cases name with ⟨hwords, hfind⟩ | ⟨c, word, rest, hwords, hfind⟩ <;>
    rw [upperCamel, hwords, hfind] <;> rfl

theorem head?_snake (name : List Char) :
    (snake name).head? = (name.find? Char.isAlphanum).map Char.toLower := by
  rcases words_cases name with ⟨hwords, hfind⟩ | ⟨c, word, rest, hwords, hfind⟩ <;>
    rw [snake, hwords, hfind]
  · rfl
  · cases rest with
    | nil => rw [List.map_singleton, List.intercalate_singleton]; rfl
    | cons next rest => simp only [List.map_cons, List.intercalate_cons_cons]; rfl

/-- What starts with the first letter or digit of a name is empty only when the name has none. -/
theorem ne_nil_iff_of_head? {name ident : List Char} {f : Char → Char}
    (h : ident.head? = (name.find? Char.isAlphanum).map f) :
    ident ≠ [] ↔ ∃ c ∈ name, c.isAlphanum = true := by
  rw [← List.find?_isSome, ← Option.isSome_map, ← h, List.isSome_head?]

/-- What starts with a letter or a digit is no underscore alone. -/
theorem ne_lone_of_head? {name ident : List Char} {f : Char → Char}
    (hf : ∀ c, c.isAlphanum = true → (f c).isAlphanum = true)
    (h : ident.head? = (name.find? Char.isAlphanum).map f) : ident ≠ ['_'] := by
  rintro rfl
  obtain ⟨c, hc, hf'⟩ := Option.map_eq_some_iff.1 h.symm
  exact absurd (hf c (List.find?_some hc)) (by rw [hf']; decide)

theorem exists_head?_withStart (ident : List Char) :
    ∃ c, (withStart ident).head? = some c ∧ c.isDigit = false := by
  rw [withStart]
  split
  · exact ⟨'_', rfl, rfl⟩
  · rename_i h
    cases ident with
    | nil => exact absurd rfl h
    | cons c rest => exact ⟨c, rfl, Bool.eq_false_iff.2 h⟩

/-- **With a start in front, an identifier is legal unless it was empty.** -/
theorem legalIdent_withStart_iff {ident : List Char} (hchars : ∀ c ∈ ident, IdentChar c)
    (hlone : ident ≠ ['_']) (hkeyword : String.ofList ident ∉ keywords) :
    LegalIdent (String.ofList (withStart ident)) ↔ ident ≠ [] := by
  have hwithLone : String.ofList (withStart ident) = "_" ↔ ident = [] := by
    rw [← String.toList_inj, String.toList_ofList, withStart]
    split
    · exact List.cons_eq_cons.trans (and_iff_right rfl)
    · rename_i hstart
      exact iff_of_false hlone fun hnil => hstart (hnil ▸ rfl)
  refine ⟨fun h => mt hwithLone.2 h.notLone, fun hne => ?_⟩
  exact
    { chars := fun c hc => by
        rw [String.toList_ofList] at hc
        exact (mem_withStart hc).elim .inr (hchars c)
      start := by rw [String.toList_ofList]; exact exists_head?_withStart ident
      notLone := mt hwithLone.1 hne
      notKeyword := mt mem_keywords_iff.2 (withStart_not_keyword hkeyword) }

/-! ## Types and enum values -/

/-- The identifier of a type never starts with a digit. -/
theorem exists_head?_typeIdent (name : String) :
    ∃ c, (typeIdent name).toList.head? = some c ∧ c.isDigit = false := by
  rw [typeIdent, String.toList_ofList]
  dsimp only [typeChars]
  split
  · exact ⟨'S', rfl, rfl⟩
  · exact exists_head?_withStart _

/-- **A type has a legal identifier when its name has a letter or a digit**, and only then. -/
theorem legalIdent_typeIdent_iff (name : String) :
    LegalIdent (typeIdent name) ↔ HasLetterOrDigit name := by
  have hhead := head?_upperCamel name.toList
  rw [HasLetterOrDigit, ← ne_nil_iff_of_head? hhead]
  dsimp only [typeIdent, typeChars]
  split
  · rename_i hself
    have hlegal : LegalIdent ("Self" ++ "_") :=
      legalIdent_append (by decide) ⟨'S', rfl, rfl⟩ (by decide) (by decide)
    exact iff_of_true hlegal (by rw [hself]; exact List.cons_ne_nil _ _)
  · rename_i hself
    exact legalIdent_withStart_iff (fun c hc => .inl (isAlphanum_of_mem_upperCamel hc))
      (ne_lone_of_head? (fun _ => isAlphanum_toUpper) hhead)
      (mt upperCamel_eq_of_keyword hself)

/-- A name in camel case has a letter or a digit when the name has one. -/
theorem exists_mem_upperCamel_iff {name : List Char} :
    (∃ c ∈ upperCamel name, c.isAlphanum = true) ↔ ∃ c ∈ name, c.isAlphanum = true := by
  rw [← ne_nil_iff_of_head? (head?_upperCamel name)]
  refine ⟨fun ⟨_, hc, _⟩ => List.ne_nil_of_mem hc, fun hne => ?_⟩
  obtain ⟨c, hc⟩ := List.exists_mem_of_ne_nil _ hne
  exact ⟨c, hc, isAlphanum_of_mem_upperCamel hc⟩

/-- The identifier of an enum value is that of a type, for a name with a letter or a digit just when
the name of the value has one. -/
theorem exists_enumVariant_eq (enumName valueName : String) :
    ∃ name, enumVariant enumName valueName = typeIdent name ∧
      (HasLetterOrDigit name ↔ HasLetterOrDigit valueName) := by
  have hident (chars : List Char) :
      String.ofList (typeChars chars) = typeIdent (String.ofList chars) := by
    rw [typeIdent, String.toList_ofList]
  dsimp only [enumVariant]
  split
  · -- What is left without the name of the enum starts with a capital.
    rename_i h
    obtain ⟨c, hhead, hupper⟩ := (Option.any_eq_true _ _).1 h.2
    have hmem := List.mem_of_mem_head? hhead
    have hc := isAlphanum_of_isUpper hupper
    refine ⟨_, hident _, ?_⟩
    rw [HasLetterOrDigit, String.toList_ofList]
    refine iff_of_true ⟨c, hmem, hc⟩ ?_
    exact exists_mem_upperCamel_iff.1 ⟨c, List.mem_of_mem_drop hmem, hc⟩
  · refine ⟨_, hident _, ?_⟩
    rw [HasLetterOrDigit, String.toList_ofList]
    exact exists_mem_upperCamel_iff

/-- **An enum value has a legal identifier when its name has a letter or a digit**, whatever the
enum is called. -/
theorem legalIdent_enumVariant_iff (enumName valueName : String) :
    LegalIdent (enumVariant enumName valueName) ↔ HasLetterOrDigit valueName := by
  obtain ⟨name, hident, hname⟩ := exists_enumVariant_eq enumName valueName
  rw [hident, legalIdent_typeIdent_iff, hname]

/-! ## Fields -/

theorem keyword_head : ∀ word ∈ keywords,
    word.toList.head?.any (fun c => !c.isDigit) = true := by decide

theorem exists_head?_keyword {word : String} (h : word ∈ keywords) :
    ∃ c, word.toList.head? = some c ∧ c.isDigit = false := by
  obtain ⟨c, hc, hdigit⟩ := (Option.any_eq_true _ _).1 (keyword_head word h)
  exact ⟨c, hc, by simpa using hdigit⟩

theorem unrawableKeywords_subset : unrawableKeywords ⊆ keywords := by decide

/-- **A field has a legal identifier when its name has a letter or a digit**, and only then. -/
theorem legalFieldIdent_fieldIdent_iff (name : String) :
    LegalFieldIdent (fieldIdent name) ↔ HasLetterOrDigit name := by
  have hhead := head?_snake name.toList
  have hchars : ∀ c ∈ snake name.toList, IdentChar c := fun _ hc =>
    (smallChar_of_mem_snake hc).identChar
  have hlone := ne_lone_of_head? (fun _ => isAlphanum_toLower) hhead
  rw [HasLetterOrDigit, ← ne_nil_iff_of_head? hhead]
  have hnonempty (h : String.ofList (snake name.toList) ∈ keywords) : snake name.toList ≠ [] :=
    fun hnil => by rw [hnil] at h; exact absurd h (by decide)
  dsimp only [fieldIdent]
  split
  · rename_i hunrawable
    have hkeyword := unrawableKeywords_subset (List.contains_iff_mem.1 hunrawable)
    refine iff_of_true (.inl ?_) (hnonempty hkeyword)
    refine legalIdent_append ?_ (exists_head?_keyword hkeyword) (by decide) (by decide)
    rwa [String.toList_ofList]
  · rename_i hrawable
    split
    · rename_i hkeyword
      have hmem := List.contains_iff_mem.1 hkeyword
      refine iff_of_true (.inr ⟨_, mem_keywords_iff.1 hmem, ?_, rfl⟩) (hnonempty hmem)
      exact mt (List.contains_iff_mem.2 ∘ mem_unrawableKeywords_iff.2) hrawable
    · rename_i hkeyword
      rw [String.toList_ofList, legalFieldIdent_iff]
      · exact legalIdent_withStart_iff hchars hlone (mt List.contains_iff_mem.2 hkeyword)
      · rw [String.toList_ofList]
        exact fun c hc => (mem_withStart hc).elim .inr (hchars c)

/-! ## Modules -/

/-- The identifier of a module starts as the name does, with its first letter or digit. -/
theorem head?_moduleIdent (name : String) :
    (moduleIdent name).toList.head? = (name.toList.find? Char.isAlphanum).map Char.toLower := by
  dsimp only [moduleIdent]
  split
  · rename_i hkeyword
    rw [String.toList_append, String.toList_ofList, List.head?_append_of_ne_nil, head?_snake]
    rintro hnil
    rw [hnil] at hkeyword
    exact absurd hkeyword (by decide)
  · rw [String.toList_ofList, head?_snake]

/-- The first letter or digit of the text is a letter. -/
def LeadsWithLetter (text : String) : Prop :=
  ∃ c, text.toList.find? Char.isAlphanum = some c ∧ c.isDigit = false

/-- **The module of a message has a legal identifier when the first letter or digit of the name is a
letter**, and only then. -/
theorem legalIdent_moduleIdent_iff (name : String) :
    LegalIdent (moduleIdent name) ↔ LeadsWithLetter name := by
  have hhead := head?_moduleIdent name
  constructor
  · intro h
    obtain ⟨c, hc, hdigit⟩ := h.start
    obtain ⟨d, hd, rfl⟩ := Option.map_eq_some_iff.1 (hhead.symm.trans hc)
    exact ⟨d, hd, isDigit_toLower d ▸ hdigit⟩
  · rintro ⟨c, hc, hdigit⟩
    rw [hc] at hhead
    exact
      { chars := fun _ => identChar_of_mem_moduleIdent
        start := ⟨_, hhead, (isDigit_toLower c).trans hdigit⟩
        notLone := fun hlone => by
          rw [hlone] at hhead
          have hc := isAlphanum_toLower (List.find?_some hc)
          rw [← Option.some.inj hhead] at hc
          exact absurd hc (by decide)
        notKeyword := mt mem_keywords_iff.2 (moduleIdent_not_keyword name) }

/-- A part of a file name is what is left of it without the extension. -/
def IsStem (part fileName : String) : Prop :=
  fileName = part ++ ".proto" ∨ part = fileName ∧ ¬ ∃ other, fileName = other ++ ".proto"

theorem stem_append (part : String) : stem (part ++ ".proto") = part := by
  have hsuffix : ".proto".toList.isSuffixOf (part ++ ".proto").toList = true := by
    rw [List.isSuffixOf_iff_suffix, String.toList_append]
    exact List.suffix_append _ _
  rw [stem, if_pos hsuffix, String.toList_append, List.length_append, Nat.add_sub_cancel,
    List.take_left, String.ofList_toList]

theorem stem_of_not_suffix {fileName : String} (h : ¬ ∃ other, fileName = other ++ ".proto") :
    stem fileName = fileName := by
  refine if_neg fun hsuffix => h ?_
  obtain ⟨other, hother⟩ := List.isSuffixOf_iff_suffix.1 hsuffix
  refine ⟨String.ofList other, ?_⟩
  rw [← String.toList_inj, String.toList_append, String.toList_ofList, hother]

/-- **The stem is what is left without the extension.** -/
theorem stem_eq_iff {part fileName : String} : stem fileName = part ↔ IsStem part fileName := by
  by_cases h : ∃ other, fileName = other ++ ".proto"
  · rw [IsStem, or_iff_left fun hwhole => hwhole.2 h]
    obtain ⟨other, rfl⟩ := h
    rw [stem_append, String.append_left_inj]
  · rw [IsStem, or_iff_right fun hpart => h ⟨part, hpart⟩, and_iff_left h, stem_of_not_suffix h]
    exact eq_comm

/-- **The module of a file has a legal identifier when its name has a letter or a digit besides the
extension**, and only then. -/
theorem legalIdent_fileModule_iff (fileName : String) :
    LegalIdent (fileModule fileName) ↔ ∃ part, IsStem part fileName ∧ HasLetterOrDigit part := by
  have hhead := head?_moduleIdent (stem fileName)
  have hlone := ne_lone_of_head? (fun _ => isAlphanum_toLower) hhead
  simp only [← stem_eq_iff, exists_eq_left']
  rw [HasLetterOrDigit, ← ne_nil_iff_of_head? hhead]
  refine legalIdent_withStart_iff (fun _ => identChar_of_mem_moduleIdent) hlone ?_
  rw [String.ofList_toList]
  exact moduleIdent_not_keyword _

/-! ## All names -/

/-- **Names have legal identifiers when they have a letter or a digit**, whatever other characters
they are made of: types, fields, the modules of files, and enum values of whatever enum. -/
theorem converted_names_legal_iff (name : String) :
    (LegalIdent (typeIdent name) ↔ HasLetterOrDigit name) ∧
    (LegalFieldIdent (fieldIdent name) ↔ HasLetterOrDigit name) ∧
    (LegalIdent (fileModule name) ↔ ∃ part, IsStem part name ∧ HasLetterOrDigit part) ∧
    ∀ enumName, LegalIdent (enumVariant enumName name) ↔ HasLetterOrDigit name :=
  ⟨legalIdent_typeIdent_iff name, legalFieldIdent_fieldIdent_iff name,
    legalIdent_fileModule_iff name, fun enumName => legalIdent_enumVariant_iff enumName name⟩

end Protowire.Naming
