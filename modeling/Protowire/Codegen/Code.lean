/-!
# Codegen/Code — code as lines and what is nested under them

Code is a list of lines, blank lines and nested code.  **How deep a line is indented is how deep it
is nested** (`Code.lines`): nothing else moves the margin, so it is back at the left when a piece of
code ends.  Blank lines are not indented.
-/

namespace Protowire

/-- A piece of code. -/
inductive Code where
  | line (text : String)
  | blank
  /-- Code that is nested under the line before it. -/
  | nest (body : List Code)

/-- A line of text and how deep it is indented. -/
structure Line where
  depth : Nat
  text : String
  deriving DecidableEq, Repr

/-- The line as text, with what one level is indented by. -/
def Line.render (indent : String) (l : Line) : String :=
  String.join (List.replicate l.depth indent) ++ l.text ++ "\n"

namespace Code

mutual

/-- The lines of a piece of code that stands at a depth. -/
def lines (depth : Nat) : Code → List Line
  | line text => [⟨depth, text⟩]
  | blank => [⟨0, ""⟩]
  | nest body => linesAll (depth + 1) body

/-- The lines of code that stands at a depth. -/
def linesAll (depth : Nat) : List Code → List Line
  | [] => []
  | c :: cs => lines depth c ++ linesAll depth cs

end

/-- The code as text, with what one level is indented by. -/
def render (indent : String) (code : List Code) : String :=
  String.join ((linesAll 0 code).map (Line.render indent))

/-- Code in braces, which open behind a line and close on a line of their own. -/
def braces (opening : String) (body : List Code) : List Code :=
  [line (opening ++ " \x7b"), nest body, line "\x7d"]

/-- Arguments on lines of their own, in parentheses that open behind a line; `closing` comes after
them. -/
def arguments (opening : String) (args : List String) (closing : String) : List Code :=
  [line (opening ++ "("), nest (args.map fun arg => line (arg ++ ",")), line (")" ++ closing)]

/-- Items with a blank line between them. -/
def items (parts : List (List Code)) : List Code :=
  List.intercalate [blank] parts

end Code

end Protowire
