import Protowire.Text.Split

/-!
# Files/Path — the names of files as text

A path is text with slashes between its segments.  Empty segments and segments of one dot say
nothing about where a path leads, and are left out of its components; in front, though, a slash says
that the path starts at the root, and a dot that it starts where one is (`Path.components`).  A path
stays below a directory when it is not empty and **none of its components starts at the root or goes
up** (`Path.staysBelow`).
-/

namespace Protowire.Path

/-- The segments of a path. -/
def segments (path : String) : List (List Char) :=
  Text.splitAll '/' path.toList

/-- The segment that leads to the directory around. -/
def up : List Char := ['.', '.']

/-- Does the segment lead to where one already is? -/
def isIdle (segment : List Char) : Bool :=
  segment == [] || segment == ['.']

/-- Does the path start at the root? -/
def isAbsolute (path : String) : Bool :=
  path.toList.head? == some '/'

/-- A step on the way that a path leads. -/
inductive Component where
  /-- It starts at the root. -/
  | root
  /-- It starts where one is. -/
  | here
  /-- It goes to the directory around. -/
  | up
  /-- It goes to what is called so. -/
  | name (segment : List Char)
  deriving DecidableEq, Repr

/-- Does the step lead nowhere else than below where one is? -/
def Component.staysBelow : Component → Bool
  | here | name _ => true
  | root | up => false

/-- The step that a segment is, unless it leads nowhere. -/
def component? (segment : List Char) : Option Component :=
  if isIdle segment then none
  else if segment = Path.up then some .up
  else some (.name segment)

/-- The step that a path starts with before its segments, if it says where it starts. -/
def start? (path : String) : Option Component :=
  if isAbsolute path then some .root
  else if (segments path).head? = some ['.'] then some .here
  else none

/-- The steps on the way that a path leads. -/
def components (path : String) : List Component :=
  (start? path).toList ++ (segments path).filterMap component?

/-- Does the path lead to something below the directory it is taken from? -/
def staysBelow (path : String) : Bool :=
  path != "" && (components path).all (·.staysBelow)

/-- A path taken from a directory. -/
def join (dir path : String) : String :=
  if dir = "" ∨ dir.toList.getLast? = some '/' then dir ++ path else dir ++ "/" ++ path

/-- The start of a path that stays when its segments are taken away, and the rest: the root, or one
dot. -/
def splitAnchor : List Char → List Char × List Char
  | '/' :: rest => (['/'], rest)
  | ['.'] => (['.'], [])
  | '.' :: '/' :: rest => (['.'], '/' :: rest)
  | path => ([], path)

/-- A path, written backwards, without the segments at its end that lead nowhere. -/
def dropIdle : List Char → List Char
  | '/' :: rest => dropIdle rest
  | ['.'] => []
  | '.' :: '/' :: rest => dropIdle rest
  | path => path

/-- The path to the directory something is in. -/
def parent? (path : String) : Option String :=
  let (anchor, body) := splitAnchor path.toList
  match dropIdle body.reverse with
  | [] => if anchor = ['.'] then some "" else none
  | last => some (String.ofList (anchor ++ (dropIdle (last.dropWhile (· != '/'))).reverse))

/-- A path and the directories around it, innermost first, at most so many. -/
def lineageUpTo : Nat → String → List String
  | 0, _ => []
  | n + 1, path => path :: ((parent? path).elim [] (lineageUpTo n))

/-- A path and the directories around it, innermost first.  Each is shorter than the one before. -/
def lineage (path : String) : List String :=
  lineageUpTo (path.length + 1) path

end Protowire.Path
