import Mathlib.Data.List.Basic
import Mathlib.Data.List.TakeWhile
import Protowire.Text.Blank
import Protowire.Text.Split

/-!
# Proofs/Text/Split — cutting text, and the blanks at the ends of the parts

Where a text is cut, two texts with the character between them are cut into **the parts of the one
and the parts of the other** (`splitAll_append_cons`).  Blanks at the ends do not count
(`trim_append_of_blank`).
-/

namespace Protowire.Text

/-! ## Cutting -/

theorem splitAll_eq_splitOn (sep : Char) (text : List Char) :
    splitAll sep text = text.splitOn sep := by
  induction text with
  | nil => rfl
  | cons c text ih =>
    rw [splitAll, ih, List.splitOn_cons_eq_if_modifyHead]
    simp only [beq_iff_eq]
    cases hparts : text.splitOn sep with
    | nil => exact absurd hparts (List.splitOn_ne_nil _ _)
    | cons part parts => rfl

variable {sep : Char} {before after text : List Char}

theorem splitAll_append_cons (sep : Char) (before after : List Char) :
    splitAll sep (before ++ sep :: after) = splitAll sep before ++ splitAll sep after := by
  simp only [splitAll_eq_splitOn]
  exact List.splitOn_append_cons_self before after

theorem splitAll_of_notMem (h : sep ∉ text) : splitAll sep text = [text] := by
  rw [splitAll_eq_splitOn, List.splitOn_eq_singleton h]

theorem splitOnce_append_cons (h : sep ∉ before) :
    splitOnce sep (before ++ sep :: after) = some (before, after) := by
  induction before with
  | nil => exact if_pos rfl
  | cons c before ih =>
    rw [List.mem_cons, not_or] at h
    rw [List.cons_append, splitOnce, if_neg (Ne.symm h.1), ih h.2]
    rfl

/-! ## Blanks at the ends -/

/-- Text of blanks only. -/
def Blank (text : List Char) : Prop := ∀ c ∈ text, isBlank c = true

instance (text : List Char) : Decidable (Blank text) := List.decidableBAll _ text

theorem dropWhile_of_blank (h : Blank text) : text.dropWhile isBlank = [] :=
  List.dropWhile_eq_nil_iff.2 h

theorem trim_of_blank (h : Blank text) : trim text = [] := by
  rw [trim, dropWhile_of_blank h]
  rfl

theorem trim_blank_append {w : List Char} (h : Blank w) : trim (w ++ text) = trim text := by
  rw [trim, List.dropWhile_append_of_pos h, trim]

theorem trimEnd_append_blank {w : List Char} (h : Blank w) :
    trimEnd (text ++ w) = trimEnd text := by
  have hw : ∀ c ∈ w.reverse, isBlank c = true := fun c hc => h c (List.mem_reverse.1 hc)
  rw [trimEnd, List.reverse_append, List.dropWhile_append_of_pos hw, trimEnd]

theorem trim_append_blank {w : List Char} (h : Blank w) : trim (text ++ w) = trim text := by
  rw [trim, List.dropWhile_append]
  split
  · rename_i hempty
    rw [dropWhile_of_blank h, trim, List.isEmpty_iff.1 hempty]
  · exact trimEnd_append_blank h

theorem trim_dropWhile (text : List Char) : trim (text.dropWhile isBlank) = trim text := by
  have hfront : Blank (text.takeWhile isBlank) := fun _ hc => List.mem_takeWhile_imp hc
  conv_rhs => rw [← List.takeWhile_append_dropWhile (p := isBlank) (l := text)]
  rw [trim_blank_append hfront]

theorem trim_trimEnd (text : List Char) : trim (trimEnd text) = trim text := by
  have hback : Blank (text.reverse.takeWhile isBlank).reverse := fun _ hc =>
    List.mem_takeWhile_imp (List.mem_reverse.1 hc)
  have htext : text = trimEnd text ++ (text.reverse.takeWhile isBlank).reverse := by
    rw [trimEnd, ← List.reverse_append, List.takeWhile_append_dropWhile, List.reverse_reverse]
  conv_rhs => rw [htext]
  rw [trim_append_blank hback]

theorem trimEnd_append_cons {c : Char} (hc : isBlank c = false) (before after : List Char) :
    trimEnd (before ++ c :: after) = before ++ c :: trimEnd after := by
  have hdrop : (after.reverse ++ c :: before.reverse).dropWhile isBlank =
      after.reverse.dropWhile isBlank ++ c :: before.reverse := by
    rw [List.dropWhile_append]
    split
    · rename_i hempty
      rw [List.isEmpty_iff.1 hempty, List.dropWhile_cons_of_neg (by rw [hc]; decide)]
      rfl
    · rfl
  rw [trimEnd, List.reverse_append, List.reverse_cons, List.append_assoc, List.singleton_append,
    hdrop, List.reverse_append, List.reverse_cons, List.reverse_reverse, List.append_assoc, trimEnd]
  rfl

/-- **What stands around a character that is not blank has one end each.** -/
theorem trim_append_cons {c : Char} (hc : isBlank c = false) (before after : List Char) :
    trim (before ++ c :: after) = before.dropWhile isBlank ++ c :: trimEnd after := by
  rw [trim, List.dropWhile_append]
  split
  · rename_i hempty
    rw [List.isEmpty_iff.1 hempty, List.dropWhile_cons_of_neg (by rw [hc]; decide)]
    exact trimEnd_append_cons hc [] after
  · exact trimEnd_append_cons hc _ after

end Protowire.Text
