/-!
# Naming/Words — the words of a name, and names in two cases

A name is cut into words at everything that is no ASCII letter or digit, and between letters where
the case shows a new word: **before a capital that follows a small letter or a digit**, and before
the last capital of a row of capitals when a small letter follows it.  `HTTPServer` has the words
`HTTP` and `Server`, `map_field` the words `map` and `field`.
-/

namespace Protowire.Naming

/-- Does a word start at `c`, after `prev` (or after no letter or digit) and before `next`? -/
def startsWord (prev : Option Char) (c : Char) (next : Option Char) : Bool :=
  match prev with
  | none => true
  | some p =>
    ((p.isLower || p.isDigit) && c.isUpper) || (p.isUpper && c.isUpper && next.any Char.isLower)

/-- The letters that go on with the word `prev` is in, and the words after it. -/
def cutWords (prev : Option Char) : List Char → List Char × List (List Char)
  | [] => ([], [])
  | c :: rest =>
    if c.isAlphanum then
      let (word, words) := cutWords (some c) rest
      if startsWord prev c rest.head? then ([], (c :: word) :: words) else (c :: word, words)
    else ([], (cutWords none rest).2)

/-- The words of a name. -/
def words (name : List Char) : List (List Char) :=
  (cutWords none name).2

/-- A word with a capital in front and small letters after it. -/
def capitalize : List Char → List Char
  | [] => []
  | c :: rest => c.toUpper :: rest.map Char.toLower

/-- The words of a name, each with a capital, written together. -/
def upperCamel (name : List Char) : List Char :=
  (words name).flatMap capitalize

/-- The words of a name in small letters, with underscores between them. -/
def snake (name : List Char) : List Char :=
  List.intercalate ['_'] ((words name).map fun word => word.map Char.toLower)

end Protowire.Naming
