import Protowire.Files.Disk
import Protowire.Files.Path

/-!
# Files/FileTree — directories and files as a value

A file tree says for every place, a list of names from the root, whether there is a directory or a
file there.  **A path is walked segment by segment** (`FileTree.walk`), and each segment is taken
from a directory, so a path fails at the first segment that leads nowhere.  `FileTree.disk` has the
operations on files act on a tree.
-/

namespace Protowire

/-- What is at a place. -/
inductive Node where
  | directory
  | file (content : Bytes)
  deriving DecidableEq, Repr

/-- A place: the names on the way from the root. -/
abbrev Place := List String

/-- Directories and files, and the place that paths start from. -/
structure FileTree where
  nodes : List (Place × Node)
  here : Place
  deriving DecidableEq, Repr

namespace FileTree

/-- The largest size of a name, in bytes. -/
def maxName : Nat := 255

/-- The largest size of a path, in bytes. -/
def maxPath : Nat := 4095

/-- What is at a place; the root is a directory. -/
def node? (t : FileTree) (place : Place) : Option Node :=
  if place = [] then some .directory else t.nodes.lookup place

/-- The tree with something at a place. -/
def put (t : FileTree) (place : Place) (node : Node) : FileTree :=
  { t with nodes := (place, node) :: t.nodes.filter fun entry => entry.1 != place }

/-- The place a segment leads to. -/
def step (t : FileTree) (place : Place) (segment : List Char) : Except DiskFault Place :=
  match t.node? place with
  | none => .error .notFound
  | some (.file _) => .error .notDirectory
  | some .directory =>
    if Path.isIdle segment then .ok place
    else if segment = Path.up then .ok place.dropLast
    else if maxName < (String.ofList segment).utf8ByteSize then .error .nameTooLong
    else .ok (place ++ [String.ofList segment])

/-- The place segments lead to; all but the last lead to something that is there. -/
def walk (t : FileTree) : (place : Place) → List (List Char) → Except DiskFault Place
  | place, [] => .ok place
  | place, segment :: rest => do t.walk (← t.step place segment) rest

/-- The place a path starts from. -/
def origin (t : FileTree) (path : String) : Place :=
  if Path.isAbsolute path then [] else t.here

/-- The place a path leads to. -/
def locate (t : FileTree) (path : String) : Except DiskFault Place :=
  if path = "" then .error .notFound
  else if path.toList.contains '\x00' then .error .badName
  else if maxPath < path.utf8ByteSize then .error .nameTooLong
  else t.walk (t.origin path) (Path.segments path)

/-- Does the last segment of a path name something? -/
def endsInName (path : String) : Bool :=
  (Path.segments path).getLast?.any fun segment => !Path.isIdle segment && segment != Path.up

/-- The content of the file a path leads to. -/
def read (t : FileTree) (path : String) : Except DiskFault Bytes := do
  match t.node? (← t.locate path) with
  | none => throw .notFound
  | some .directory => throw .isDirectory
  | some (.file content) => return content

/-- Does a path lead to a directory? -/
def isDirectory (t : FileTree) (path : String) : Bool :=
  match t.locate path with
  | .ok place => t.node? place == some .directory
  | .error _ => false

/-- Makes the directory a path leads to. -/
def makeDirectory (t : FileTree) (path : String) : Except DiskFault FileTree := do
  let place ← t.locate path
  if !endsInName path || (t.node? place).isSome then throw .alreadyExists
  return t.put place .directory

/-- Writes the file a path leads to, when there is nothing. -/
def create (t : FileTree) (path : String) (content : Bytes) : Except DiskFault FileTree := do
  let place ← t.locate path
  if (t.node? place).isSome then throw .alreadyExists
  if !endsInName path then throw .isDirectory
  return t.put place (.file content)

/-- Writes the file a path leads to, whether or not it is there. -/
def replace (t : FileTree) (path : String) (content : Bytes) : Except DiskFault FileTree := do
  let place ← t.locate path
  if !endsInName path || t.node? place == some .directory then throw .isDirectory
  return t.put place (.file content)

/-- The operation that makes a tree of a tree, with the tree as it was when it fails. -/
def change (operation : FileTree → Except DiskFault FileTree) :
    StateM FileTree (Except DiskFault Unit) :=
  modifyGet fun t =>
    match operation t with
    | .ok t => (.ok (), t)
    | .error fault => (.error fault, t)

/-- The operations on files, acting on a tree. -/
def disk : Disk (StateM FileTree) where
  read path := return (← get).read path
  makeDirectory path := change fun t => t.makeDirectory path
  isDirectory path := return (← get).isDirectory path
  create path content := change fun t => t.create path content
  replace path content := change fun t => t.replace path content

end FileTree

end Protowire
