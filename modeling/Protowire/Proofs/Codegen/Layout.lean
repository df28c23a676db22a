import Protowire.Proofs.Codegen.Writer
import Protowire.Proofs.Text.Brackets
import Protowire.Proofs.Text.Split

/-!
# Proofs/Codegen/Layout — code whose margin shows its brackets

Lines are laid out well when each stands **as far in as there are brackets open around it**, those
aside that it closes itself at its beginning (`Laid`).  Pieces of code that leave open what was open
before them (`Code.Neat`) are put together to one that does, in braces, as arguments or as items.
On the text of such code this can be read off without the code: what is open in front of a line says
how far the line is indented (`Indented`, `Laid.indented`).
-/

namespace Protowire

open Text (opened closers marks closed_iff Closed Starts Whole)

/-! ## Lines -/

/-- Lines stand as far in as brackets are open around them: those in `stack` before the first line,
and those of the last index behind the last one. -/
inductive Laid : List Char → List Line → List Char → Prop where
  | nil (stack : List Char) : Laid stack [] stack
  | blank {stack stack' : List Char} {lines : List Line} (h : Laid stack lines stack') :
      Laid stack (⟨0, ""⟩ :: lines) stack'
  | line {stack next stack' : List Char} {l : Line} {lines : List Line}
      (hopened : opened stack l.text.toList = some next) (honeLine : '\n' ∉ l.text.toList)
      (hstarts : Starts l.text) (hdepth : l.depth + closers l.text.toList = stack.length)
      (h : Laid next lines stack') : Laid stack (l :: lines) stack'

namespace Laid

variable {stack next stack' : List Char} {lines lines' : List Line}

theorem append (h : Laid stack lines next) (h' : Laid next lines' stack') :
    Laid stack (lines ++ lines') stack' := by
  induction h with
  | nil => exact h'
  | blank _ ih => exact .blank (ih h')
  | line hopened honeLine hstarts hdepth _ ih =>
    exact .line hopened honeLine hstarts hdepth (ih h')

/-- **A line by its marks**: from the brackets in `inner`, which it may close, to those in
`next`. -/
theorem of_marks {inner next : List Char} {depth : Nat} {text : String}
    (hopened : opened inner (marks text) = some next) (honeLine : '\n' ∉ marks text)
    (hstarts : Starts text) (stack : List Char)
    (hdepth : depth + closers text.toList = (inner ++ stack).length) :
    Laid (inner ++ stack) [⟨depth, text⟩] (next ++ stack) := by
  refine .line ?_ ?_ hstarts hdepth (.nil _)
  · rw [Text.opened_marks] at hopened
    exact Text.opened_append_left hopened stack
  · rwa [← Text.newline_mem_marks_iff]

/-- A line that closes nothing but what it opens. -/
theorem of_marks_nil {next : List Char} {text : String}
    (hopened : opened [] (marks text) = some next) (honeLine : '\n' ∉ marks text)
    (hstarts : Starts text) (stack : List Char) :
    Laid stack [⟨stack.length, text⟩] (next ++ stack) := by
  refine of_marks hopened honeLine hstarts stack ?_
  rw [Text.opened_marks] at hopened
  rw [Text.closers_of_opened_nil hopened]
  rfl

end Laid

/-! ## Code -/

/-- Code that stands as far in as brackets are open around it, and closes those it opens. -/
def Code.Neat (code : List Code) : Prop :=
  ∀ stack : List Char, Laid stack (linesAll stack.length code) stack

namespace Code

variable {code code' : List Code}

theorem neat_nil : Neat [] := fun stack => .nil stack

theorem Neat.append (h : Neat code) (h' : Neat code') : Neat (code ++ code') := fun stack => by
  rw [linesAll_append]
  exact (h stack).append (h' stack)

theorem neat_blank : Neat [blank] := fun stack => .blank (.nil stack)

theorem neat_line {text : String} (h : Whole text) : Neat [line text] := by
  obtain ⟨hopened, honeLine⟩ := closed_iff.1 h.toClosed
  have hline := Laid.of_marks_nil hopened honeLine h.starts
  exact hline

theorem Neat.cons {text : String} (h : Whole text) (hcode : Neat code) :
    Neat (line text :: code) :=
  (neat_line h).append hcode

theorem neat_flatMap {α : Type} {l : List α} {code : α → List Code} (h : ∀ a ∈ l, Neat (code a)) :
    Neat (l.flatMap code) := by
  induction l with
  | nil => exact neat_nil
  | cons a l ih =>
    exact (h a List.mem_cons_self).append (ih fun a ha => h a (List.mem_cons_of_mem _ ha))

theorem neat_map {α : Type} {l : List α} {text : α → String}
    (h : ∀ a ∈ l, Whole (text a)) : Neat (l.map fun a => line (text a)) := by
  rw [← List.flatMap_pure_eq_map]
  exact neat_flatMap fun a ha => neat_line (h a ha)

theorem neat_items {parts : List (List Code)} (h : ∀ part ∈ parts, Neat part) :
    Neat (items parts) := by
  rw [← spaced_false]
  generalize false = separates
  induction parts generalizing separates with
  | nil => exact neat_nil
  | cons part parts ih =>
    have hblank : Neat (if separates then [blank] else []) := by
      split
      · exact neat_blank
      · exact neat_nil
    exact (hblank.append (h part List.mem_cons_self)).append
      (ih (fun part hpart => h part (List.mem_cons_of_mem _ hpart)) true)

/-- A line with a bracket behind text that closes what it opens. -/
theorem laid_opening {text bracket : String} {c : Char} (h : Whole text)
    (hopened : opened [] (marks bracket) = some [c]) (honeLine : '\n' ∉ marks bracket)
    (stack : List Char) : Laid stack [⟨stack.length, text ++ bracket⟩] (c :: stack) :=
  .of_marks_nil ((h.opened_marks_append [] bracket).trans hopened)
    (h.newline_notMem_marks_append honeLine) (h.starts.append bracket) stack

/-- A brace that closes, on a line of its own. -/
theorem laid_brace (stack : List Char) :
    Laid ('\x7b' :: stack) [⟨stack.length, "\x7d"⟩] stack :=
  @Laid.of_marks ['\x7b'] [] _ _ (by decide) (by decide) (by decide) stack rfl

theorem neat_braces {text : String} {body : List Code} (h : Whole text)
    (hbody : Neat body) : Neat (braces text body) := by
  intro stack
  have hopens : Laid stack [⟨stack.length, text ++ " \x7b"⟩] ('\x7b' :: stack) :=
    laid_opening h (by decide) (by decide) stack
  exact hopens.append ((hbody _).append (laid_brace stack))

/-- A line that closes a parenthesis before its text. -/
theorem laid_closing {text : String} {next : List Char}
    (hopened : opened [] (marks text) = some next) (honeLine : '\n' ∉ marks text)
    (stack : List Char) :
    Laid ('(' :: stack) [⟨stack.length, ")" ++ text⟩] (next ++ stack) := by
  refine @Laid.of_marks ['('] next _ _ ?_ ?_ (Starts.append (by decide) text) stack ?_
  · rw [Text.marks_append, Text.opened_append]
    exact hopened
  · rw [Text.marks_append, List.mem_append, not_or]
    exact ⟨by decide, honeLine⟩
  · rw [Text.opened_marks] at hopened
    have hclosers : closers (')' :: text.toList) = 1 := by
      rw [Text.closers_cons_of_partner rfl, Text.closers_of_opened_nil hopened]
    rw [String.toList_append]
    exact congrArg (stack.length + ·) hclosers

theorem neat_arguments {text after : String} {args : List String} (h : Whole text)
    (hargs : ∀ arg ∈ args, Whole arg) (hafter : Closed after) :
    Neat (arguments text args after) := by
  intro stack
  have hlines : Neat (args.map fun arg => line (arg ++ ",")) :=
    neat_map fun arg harg => (hargs arg harg).append (by decide)
  have hopens : Laid stack [⟨stack.length, text ++ "("⟩] ('(' :: stack) :=
    laid_opening h (by decide) (by decide) stack
  have hcloses : Laid ('(' :: stack) [⟨stack.length, ")" ++ after⟩] stack :=
    @laid_closing _ [] (closed_iff.1 hafter).1 (closed_iff.1 hafter).2 stack
  exact hopens.append ((hlines _).append hcloses)

/-- Arguments behind which braces open on the line that closes the parenthesis. -/
theorem neat_signature {text after : String} {args body : List Code} (h : Whole text)
    (hargs : Neat args) (hafter : Closed after) (hbody : Neat body) :
    Neat ([line (text ++ "("), nest args] ++ braces (")" ++ after) body) := by
  intro stack
  have hopens : Laid stack [⟨stack.length, text ++ "("⟩] ('(' :: stack) :=
    laid_opening h (by decide) (by decide) stack
  have hbetween : Laid ('(' :: stack) [⟨stack.length, ")" ++ (after ++ " \x7b")⟩]
      ('\x7b' :: stack) :=
    @laid_closing _ ['\x7b'] ((hafter.opened_marks_append [] _).trans (by decide))
      (hafter.newline_notMem_marks_append (by decide)) stack
  rw [← String.append_assoc] at hbetween
  exact hopens.append ((hargs _).append (hbetween.append ((hbody _).append (laid_brace stack))))

end Code

/-! ## Text -/

/-- A line stands as far in as brackets are open in front of it, those aside that it closes itself
at its beginning; `margin` is what one level is indented by. -/
def Fits (margin : String) (stack line : List Char) : Prop :=
  ∃ depth rest, depth + closers rest = stack.length ∧
    line = (List.replicate depth margin.toList).flatten ++ rest ∧
    ∃ c, rest.head? = some c ∧ Text.isBlank c = false

/-- A line stands `depth` levels in, and these are as many as brackets are open in front of it. -/
def fitsAt (margin : String) (stack line : List Char) (depth : Nat) : Bool :=
  let front := (List.replicate depth margin.toList).flatten
  let rest := line.drop front.length
  front.isPrefixOf line && depth + closers rest == stack.length &&
    rest.head?.any fun c => !Text.isBlank c

theorem fits_iff {margin : String} {stack line : List Char} :
    Fits margin stack line ↔ ∃ depth ∈ List.range (stack.length + 1),
      fitsAt margin stack line depth = true := by
  simp only [fitsAt, Bool.and_eq_true, List.isPrefixOf_iff_prefix, beq_iff_eq, Option.any_eq_true,
    Bool.not_eq_true', List.mem_range]
  constructor
  · rintro ⟨depth, rest, hdepth, rfl, hstarts⟩
    refine ⟨depth, by omega, ⟨List.prefix_append _ _, ?_⟩, ?_⟩
    · rwa [List.drop_left]
    · rwa [List.drop_left]
  · rintro ⟨depth, -, ⟨⟨rest, rfl⟩, hdepth⟩, hstarts⟩
    rw [List.drop_left] at hdepth hstarts
    exact ⟨depth, rest, hdepth, rfl, hstarts⟩

instance (margin : String) (stack line : List Char) : Decidable (Fits margin stack line) :=
  decidable_of_iff _ fits_iff.symm

/-- Text whose lines all stand as far in as brackets are open in front of them, but for those that
are empty. -/
def Indented (margin : String) (text : List Char) : Prop :=
  ∀ before line after, Text.splitAll '\n' text = before ++ line :: after → line ≠ [] →
    ∃ stack, opened [] before.flatten = some stack ∧ Fits margin stack line

section Text

variable {margin : String} {stack stack' : List Char} {lines : List Line}

/-- A line as characters, without the line break. -/
def Line.chars (margin : String) (l : Line) : List Char :=
  (List.replicate l.depth margin.toList).flatten ++ l.text.toList

theorem Line.toList_render (margin : String) (l : Line) :
    (l.render margin).toList = l.chars margin ++ ['\n'] := by
  rw [render, String.toList_append, String.toList_append, String.toList_join, List.flatMap_def,
    List.map_replicate, chars]
  rfl

theorem Line.toList_renderAll_cons (margin : String) (l : Line) (lines : List Line) :
    (renderAll margin (l :: lines)).toList =
      l.chars margin ++ '\n' :: (renderAll margin lines).toList := by
  rw [renderAll, List.map_cons, String.join_cons, String.toList_append, Line.toList_render,
    List.append_assoc]
  rfl

/-- Margins that close what they open leave open what was open. -/
theorem opened_margin (hmargin : Closed margin) (depth : Nat) (stack text : List Char) :
    opened stack ((List.replicate depth margin.toList).flatten ++ text) = opened stack text := by
  induction depth with
  | zero => rfl
  | succ depth ih =>
    rw [List.replicate_succ, List.flatten_cons, List.append_assoc, Text.opened_append,
      hmargin.opened_eq, Option.bind_some, ih]

theorem newline_notMem_margin (hmargin : Closed margin) (depth : Nat) :
    '\n' ∉ (List.replicate depth margin.toList).flatten := by
  intro hmem
  obtain ⟨text, htext, hmem⟩ := List.mem_flatten.1 hmem
  rw [List.eq_of_mem_replicate htext] at hmem
  exact hmargin.oneLine hmem

namespace Laid

theorem newline_notMem (hmargin : Closed margin) (h : Laid stack lines stack') :
    ∀ l ∈ lines, '\n' ∉ l.chars margin := by
  induction h with
  | nil => exact nofun
  | blank _ ih => exact List.forall_mem_cons.2 ⟨List.not_mem_nil, ih⟩
  | line _ honeLine _ _ _ ih =>
    refine List.forall_mem_cons.2 ⟨?_, ih⟩
    rw [Line.chars, List.mem_append, not_or]
    exact ⟨newline_notMem_margin hmargin _, honeLine⟩

/-- Lines are told apart again in their text. -/
theorem splitAll_renderAll (hmargin : Closed margin) (h : Laid stack lines stack') :
    Text.splitAll '\n' (Line.renderAll margin lines).toList =
      lines.map (Line.chars margin) ++ [[]] := by
  have hnewline := h.newline_notMem hmargin
  clear h
  induction lines with
  | nil => rfl
  | cons l lines ih =>
    obtain ⟨hl, hnewline⟩ := List.forall_mem_cons.1 hnewline
    rw [Line.toList_renderAll_cons, Text.splitAll_append_cons, Text.splitAll_of_notMem hl,
      ih hnewline]
    rfl

/-- **What the lines leave open, their text does.** -/
theorem opened_renderAll (hmargin : Closed margin) (h : Laid stack lines stack') :
    opened stack (Line.renderAll margin lines).toList = some stack' := by
  induction h with
  | nil => rfl
  | blank _ ih => rw [Line.toList_renderAll_cons]; exact ih
  | line hopened _ _ _ _ ih =>
    rw [Line.toList_renderAll_cons, Line.chars, List.append_assoc, opened_margin hmargin,
      Text.opened_append, hopened]
    exact ih

/-- Each line that is not empty stands as far in as brackets are open in front of it. -/
theorem exists_fits (hmargin : Closed margin) (h : Laid stack lines stack')
    {before after : List (List Char)} {line : List Char}
    (hsplit : lines.map (Line.chars margin) ++ [[]] = before ++ line :: after)
    (hline : line ≠ []) :
    ∃ next, opened stack before.flatten = some next ∧ Fits margin next line := by
  induction h generalizing before with
  | nil =>
    cases before with
    | nil => exact absurd (List.cons.inj hsplit).1.symm hline
    | cons first before => exact absurd (List.cons.inj hsplit).2 (by simp)
  | blank _ ih =>
    cases before with
    | nil => exact absurd (List.cons.inj hsplit).1.symm hline
    | cons first before =>
      obtain ⟨rfl, hrest⟩ := List.cons.inj hsplit
      have hinner := ih hrest
      exact hinner
  | @line stack _ _ l _ hopened _ hstarts hdepth _ ih =>
    cases before with
    | nil =>
      obtain ⟨rfl, -⟩ := List.cons.inj hsplit
      exact ⟨stack, rfl, l.depth, l.text.toList, hdepth, rfl, hstarts⟩
    | cons first before =>
      obtain ⟨rfl, hrest⟩ := List.cons.inj hsplit
      obtain ⟨next, hnext, hfits⟩ := ih hrest
      refine ⟨next, ?_, hfits⟩
      rw [List.flatten_cons, Line.chars, List.append_assoc, opened_margin hmargin,
        Text.opened_append, hopened]
      exact hnext

/-- **Lines that are laid out well are well indented text.** -/
theorem indented (hmargin : Closed margin) (h : Laid [] lines stack') :
    Indented margin (Line.renderAll margin lines).toList := by
  intro before line after hsplit hline
  rw [h.splitAll_renderAll hmargin] at hsplit
  exact h.exists_fits hmargin hsplit hline

end Laid

/-- What is open does not depend on line breaks. -/
theorem opened_flatten_splitAll (stack text : List Char) :
    opened stack (Text.splitAll '\n' text).flatten = opened stack text := by
  have hcons (c : Char) (parts : List (List Char)) :
      (Text.consFirst c parts).flatten = c :: parts.flatten := by
    cases parts <;> rfl
  induction text generalizing stack with
  | nil => rfl
  | cons c text ih =>
    rw [Text.splitAll]
    split
    · rename_i hc
      rw [List.flatten_cons, List.nil_append, ih, opened, opened, List.foldlM_cons,
        Text.open1_of_not_isBracket (hc ▸ by decide)]
      rfl
    · rw [hcons, opened, opened, List.foldlM_cons, List.foldlM_cons]
      exact congrArg _ (funext ih)

/-- In well indented text each line fits where it stands. -/
theorem Indented.fits {front line back : List Char}
    (h : Indented margin (front ++ '\n' :: (line ++ '\n' :: back))) (honeLine : '\n' ∉ line)
    (hline : line ≠ []) (hopened : opened [] front = some stack) : Fits margin stack line := by
  have hsplit : Text.splitAll '\n' (front ++ '\n' :: (line ++ '\n' :: back)) =
      Text.splitAll '\n' front ++ line :: Text.splitAll '\n' back := by
    rw [Text.splitAll_append_cons, Text.splitAll_append_cons, Text.splitAll_of_notMem honeLine]
    rfl
  obtain ⟨stack', hstack', hfits⟩ := h _ _ _ hsplit hline
  rw [opened_flatten_splitAll, hopened] at hstack'
  exact Option.some.inj hstack' ▸ hfits

/-- A line that does not fit among those it is written with. -/
theorem not_indented_of_not_fits {outer front before line after : List Char} {rest : List Line}
    (hfront : opened [] front = some outer)
    (hlines : (Line.renderAll margin lines).toList = before ++ '\n' :: (line ++ '\n' :: after))
    (hbefore : opened outer before = some stack) (honeLine : '\n' ∉ line)
    (hline : line ≠ []) (hfits : ¬ Fits margin stack line) :
    ¬ Indented margin (front ++ (Line.renderAll margin (lines ++ rest)).toList) := by
  intro h
  rw [Line.renderAll_append, String.toList_append, hlines, List.append_assoc, List.cons_append,
    List.append_assoc, List.cons_append, ← List.append_assoc] at h
  refine hfits (h.fits honeLine hline ?_)
  rw [Text.opened_append, hfront, Option.bind_some, hbefore]

end Text

end Protowire
