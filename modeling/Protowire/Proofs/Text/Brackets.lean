import Mathlib.Data.List.Basic
import Protowire.Text.Blank

/-!
# Proofs/Text/Brackets — the brackets that are open in a text

Reading a text, one keeps the braces and parentheses that are open, innermost first
(`Text.opened`); a bracket that closes must meet its partner.  Only brackets matter there, and line
breaks for what may stand on one line: these are the marks of a text (`Text.marks`).  **A text that
closes what it opens leaves open whatever was open before it** (`Text.Closed`), which is known from
its marks (`Text.closed_iff`).
-/

namespace Protowire.Text

/-! ## Open brackets -/

/-- Does the character open a bracket? -/
def isOpening (c : Char) : Bool := c == '(' || c == '\x7b'

/-- The bracket that a character closes. -/
def partner? : Char → Option Char
  | ')' => some '('
  | '\x7d' => some '\x7b'
  | _ => none

/-- Is the character a brace or a parenthesis? -/
def isBracket (c : Char) : Bool := isOpening c || (partner? c).isSome

/-- The open brackets, innermost first, behind one more character. -/
def open1 (stack : List Char) (c : Char) : Option (List Char) :=
  match partner? c with
  | none => some (if isOpening c then c :: stack else stack)
  | some partner =>
    match stack with
    | [] => none
    | bracket :: outer => if bracket = partner then some outer else none

/-- The open brackets, innermost first, behind a text that starts with those in `stack` open; there
are none if a bracket is closed that was not the last to be opened. -/
def opened (stack text : List Char) : Option (List Char) :=
  text.foldlM open1 stack

theorem opened_append (stack text text' : List Char) :
    opened stack (text ++ text') = (opened stack text).bind fun stack' => opened stack' text' :=
  List.foldlM_append

theorem open1_of_not_isBracket {c : Char} (hc : isBracket c = false) (stack : List Char) :
    open1 stack c = some stack := by
  rw [isBracket, Bool.or_eq_false_iff, Option.isSome_eq_false_iff, Option.isNone_iff_eq_none] at hc
  rw [open1, hc.2, hc.1]
  rfl

/-- What is open further out does not matter. -/
theorem open1_append {stack stack' : List Char} {c : Char} (h : open1 stack c = some stack')
    (outer : List Char) : open1 (stack ++ outer) c = some (stack' ++ outer) := by
  rw [open1] at h ⊢
  cases hpartner : partner? c with
  | none =>
    rw [hpartner] at h
    rw [← Option.some.inj h]
    dsimp only
    split <;> rfl
  | some partner =>
    rw [hpartner] at h
    cases stack with
    | nil => cases h
    | cons bracket stack =>
      dsimp only [List.cons_append] at h ⊢
      by_cases heq : bracket = partner
      · rw [if_pos heq] at h ⊢
        rw [Option.some.inj h]
      · rw [if_neg heq] at h
        cases h

/-- **What is open further out stays open** behind a text. -/
theorem opened_append_left {stack stack' text : List Char} (h : opened stack text = some stack')
    (outer : List Char) : opened (stack ++ outer) text = some (stack' ++ outer) := by
  induction text generalizing stack with
  | nil => rw [← Option.some.inj h]; rfl
  | cons c text ih =>
    rw [opened, List.foldlM_cons, Option.bind_eq_bind, Option.bind_eq_some_iff] at h ⊢
    obtain ⟨next, hnext, h⟩ := h
    exact ⟨next ++ outer, open1_append hnext outer, ih h⟩

/-! ## Marks -/

/-- Is the character a bracket or a line break? -/
def isMark (c : Char) : Bool := isBracket c || c == '\n'

/-- The brackets and line breaks of a text. -/
def marks (text : String) : List Char := text.toList.filter isMark

theorem marks_append (text text' : String) : marks (text ++ text') = marks text ++ marks text' := by
  rw [marks, String.toList_append, List.filter_append]
  rfl

theorem opened_marks (stack : List Char) (text : String) :
    opened stack (marks text) = opened stack text.toList := by
  rw [marks]
  induction text.toList generalizing stack with
  | nil => rfl
  | cons c text ih =>
    cases hc : isMark c with
    | true =>
      rw [List.filter_cons_of_pos hc, opened, opened, List.foldlM_cons, List.foldlM_cons]
      exact congrArg _ (funext ih)
    | false =>
      have hbracket : isBracket c = false := (Bool.or_eq_false_iff.1 hc).1
      rw [List.filter_cons_of_neg (Bool.eq_false_iff.1 hc), ih, opened, opened, List.foldlM_cons,
        open1_of_not_isBracket hbracket]
      rfl

theorem newline_mem_marks_iff {text : String} : '\n' ∈ marks text ↔ '\n' ∈ text.toList := by
  rw [marks, List.mem_filter, and_iff_left (by decide)]

/-- The marks of a text, said for a text that is put together. -/
def HasMarks (text : String) (m : List Char) : Prop := marks text = m

namespace HasMarks

variable {text text' : String} {m m' : List Char}

theorem ofList (text : List Char) : HasMarks (String.ofList text) (text.filter isMark) := by
  rw [HasMarks, marks, String.toList_ofList]

theorem append (h : HasMarks text m) (h' : HasMarks text' m') :
    HasMarks (text ++ text') (m ++ m') := by
  rw [HasMarks, marks_append, h, h']

end HasMarks

/-- A text with neither brackets nor line breaks. -/
abbrev Plain (text : String) : Prop := HasMarks text []

theorem plain_iff {text : String} : Plain text ↔ ∀ c ∈ text.toList, isMark c = false := by
  rw [Plain, HasMarks, marks, List.filter_eq_nil_iff]
  simp only [Bool.not_eq_true]

instance (text : String) : Decidable (Plain text) :=
  inferInstanceAs (Decidable (marks text = []))

theorem Plain.append {text text' : String} (h : Plain text) (h' : Plain text') :
    Plain (text ++ text') :=
  HasMarks.append h h'

/-! ## Texts that close what they open -/

/-- A text on one line that closes the brackets it opens, and no others. -/
structure Closed (text : String) : Prop where
  opened_eq : ∀ stack, opened stack text.toList = some stack
  oneLine : '\n' ∉ text.toList

/-- **The marks of a text say whether it closes what it opens.** -/
theorem closed_iff {text : String} :
    Closed text ↔ opened [] (marks text) = some [] ∧ '\n' ∉ marks text := by
  rw [newline_mem_marks_iff, opened_marks]
  exact ⟨fun h => ⟨h.opened_eq [], h.oneLine⟩,
    fun h => ⟨fun stack => opened_append_left h.1 stack, h.2⟩⟩

instance (text : String) : Decidable (Closed text) := decidable_of_iff _ closed_iff.symm

theorem HasMarks.closed {text : String} {m : List Char} (h : HasMarks text m)
    (hm : opened [] m = some [] ∧ '\n' ∉ m) : Closed text :=
  closed_iff.2 (h.symm ▸ hm)

theorem Plain.closed {text : String} (h : Plain text) : Closed text :=
  HasMarks.closed h (by decide)

theorem Closed.append {text text' : String} (h : Closed text) (h' : Closed text') :
    Closed (text ++ text') where
  opened_eq stack := by
    rw [String.toList_append, opened_append, h.opened_eq, Option.bind_some, h'.opened_eq]
  oneLine := by
    rw [String.toList_append, List.mem_append, not_or]
    exact ⟨h.oneLine, h'.oneLine⟩

/-- A text that closes what it opens does not change what is open. -/
theorem Closed.opened_marks_append {text : String} (h : Closed text) (stack : List Char)
    (text' : String) : opened stack (marks (text ++ text')) = opened stack (marks text') := by
  rw [marks_append, opened_append, opened_marks, h.opened_eq, Option.bind_some]

theorem Closed.newline_notMem_marks_append {text text' : String} (h : Closed text)
    (h' : '\n' ∉ marks text') : '\n' ∉ marks (text ++ text') := by
  rw [marks_append, List.mem_append, not_or]
  exact ⟨mt newline_mem_marks_iff.1 h.oneLine, h'⟩

/-! ## How a text begins -/

/-- How many closing brackets a text begins with. -/
def closers (text : List Char) : Nat :=
  (text.takeWhile fun c => (partner? c).isSome).length

theorem closers_cons_of_partner {c : Char} {text : List Char} (hc : (partner? c).isSome = true) :
    closers (c :: text) = closers text + 1 := by
  rw [closers, List.takeWhile_cons, if_pos hc]
  rfl

/-- A text closes nothing at its beginning when it closes only what it opens. -/
theorem partner?_of_opened_nil {c : Char} {text stack : List Char}
    (h : opened [] (c :: text) = some stack) : partner? c = none := by
  cases hpartner : partner? c with
  | none => rfl
  | some partner =>
    rw [opened, List.foldlM_cons, open1, hpartner] at h
    cases h

theorem closers_of_opened_nil {text stack : List Char} (h : opened [] text = some stack) :
    closers text = 0 := by
  cases text with
  | nil => rfl
  | cons c text => rw [closers, List.takeWhile_cons, partner?_of_opened_nil h]; rfl

/-- A text that begins with a character that is not blank. -/
def Starts (text : String) : Prop := ∃ c, text.toList.head? = some c ∧ isBlank c = false

instance (text : String) : Decidable (Starts text) :=
  decidable_of_iff (text.toList.head?.any (fun c => !isBlank c) = true) <| by
    rw [Option.any_eq_true]
    simp only [Bool.not_eq_true', Starts]

theorem Starts.append {text : String} (h : Starts text) (text' : String) :
    Starts (text ++ text') := by
  obtain ⟨c, hc, hblank⟩ := h
  refine ⟨c, ?_, hblank⟩
  rw [String.toList_append, List.head?_append, hc, Option.some_or]

/-- A text that is empty or does not begin with a blank may stand in front. -/
theorem Starts.append_left {text text' : String}
    (h : ∀ c, text.toList.head? = some c → isBlank c = false) (h' : Starts text') :
    Starts (text ++ text') := by
  obtain ⟨d, hd, hblank⟩ := h'
  rw [Starts, String.toList_append, List.head?_append, hd]
  cases hhead : text.toList.head? with
  | none => exact ⟨d, rfl, hblank⟩
  | some c => exact ⟨c, rfl, h c hhead⟩

/-! ## Texts for a line -/

/-- A text that is a line of its own: it closes what it opens and does not begin with a blank. -/
structure Whole (text : String) : Prop extends Closed text where
  starts : Starts text

theorem Whole.append {text text' : String} (h : Whole text) (h' : Closed text') :
    Whole (text ++ text') :=
  ⟨h.toClosed.append h', h.starts.append text'⟩

/-- The marks of a text that does not begin with a blank, said for a text that is put together. -/
structure Begins (text : String) (m : List Char) : Prop where
  hasMarks : HasMarks text m
  starts : Starts text

namespace Begins

variable {text text' : String} {m m' : List Char}

theorem ofList (c : Char) (text : List Char) (hc : isBlank c = false) :
    Begins (String.ofList (c :: text)) ((c :: text).filter isMark) where
  hasMarks := .ofList _
  starts := ⟨c, by rw [String.toList_ofList]; rfl, hc⟩

theorem append (h : Begins text m) (h' : HasMarks text' m') : Begins (text ++ text') (m ++ m') :=
  ⟨h.hasMarks.append h', h.starts.append text'⟩

/-- **What is put together is a line when its marks say so.** -/
theorem whole (h : Begins text m) (hm : opened [] m = some [] ∧ '\n' ∉ m) : Whole text :=
  ⟨h.hasMarks.closed hm, h.starts⟩

end Begins

theorem Whole.ofList (c : Char) (text : List Char) (hc : isBlank c = false)
    (hm : opened [] ((c :: text).filter isMark) = some [] ∧ '\n' ∉ (c :: text).filter isMark) :
    Whole (String.ofList (c :: text)) :=
  (Begins.ofList c text hc).whole hm

/-- A text without brackets and line breaks that does not begin with a blank. -/
abbrev Word (text : String) : Prop := Begins text []

end Protowire.Text
