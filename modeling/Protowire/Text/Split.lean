/-!
# Text/Split — text cut at a character

`splitAll` cuts at every occurrence of a character and gives one part more than there are
occurrences; `splitOnce` cuts at the first one only.
-/

namespace Protowire.Text

/-- The parts with a character put in front of the first one. -/
def consFirst (c : Char) : List (List Char) → List (List Char)
  | [] => [[c]]
  | part :: parts => (c :: part) :: parts

/-- The parts of a text between the occurrences of a character. -/
def splitAll (sep : Char) : List Char → List (List Char)
  | [] => [[]]
  | c :: rest => if c = sep then [] :: splitAll sep rest else consFirst c (splitAll sep rest)

/-- The text before and after the first occurrence of a character, if it occurs. -/
def splitOnce (sep : Char) : List Char → Option (List Char × List Char)
  | [] => none
  | c :: rest =>
    if c = sep then some ([], rest)
    else (splitOnce sep rest).map fun (before, after) => (c :: before, after)

end Protowire.Text
