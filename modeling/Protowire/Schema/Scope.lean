import Protowire.Schema.Declaration

/-!
# Schema/Scope — what a name means where it stands

A type name with a dot in front is a full name.  Any other is tried **in the scope it stands in,
then in each scope around it, out to the root**; the first try that hits decides.  Only what is
declared in the file itself, or in a file it leads to by imports, can be hit: anything else is
passed over.
-/

namespace Protowire.Schema

/-- What a full name stands for. -/
inductive Symbol where
  | message (id : MessageId)
  | enumeration (id : EnumId)
  deriving DecidableEq, Repr

/-- The files a file imports, by number. -/
def importIds (files : List FileDescriptor) (f : FileDescriptor) : List FileId :=
  f.imports.filterMap fun name => files.findIdx? fun g => g.name == name

/-- The files each file sees — itself and those it leads to by imports — for files that come
after what they import. -/
def sights (files : List FileDescriptor) : List (List FileId) :=
  files.foldl (fun seen f =>
    seen ++ [(seen.length :: (importIds files f).flatMap fun i => seen.getD i []).eraseDups]) []

/-- The scopes in a full name: what stands before each of its dots, then all of it. -/
def cuts : List Char → List (List Char)
  | [] => [[]]
  | c :: rest =>
    let inner := (cuts rest).map (c :: ·)
    if c = '.' then [] :: inner else inner

/-- A scope and the scopes around it, innermost first and the root last. -/
def scopes (scope : String) : List String :=
  ((cuts scope.toList).reverse ++ [[]]).map String.ofList

/-- The full names a type name may stand for in a scope, in the order they are tried. -/
def candidates (scope typeName : String) : List String :=
  match typeName.toList with
  | '.' :: rest => [String.ofList rest]
  | _ => (scopes scope).map fun outer => qualify outer typeName

/-- Everything that is declared, and which file sees which. -/
structure Symbols where
  messages : List (Declared MessageDescriptor)
  enums : List (Declared EnumDescriptor)
  sights : List (List FileId)

namespace Symbols

/-- The symbols of files that come after what they import. -/
def ofFiles (files : List FileDescriptor) : Symbols :=
  { messages := (declarations files).filterMap Declaration.message?
    enums := (declarations files).filterMap Declaration.enumeration?
    sights := Schema.sights files }

/-- Does the first file see the second? -/
def sees (t : Symbols) (file other : FileId) : Bool :=
  (t.sights.getD file []).contains other

/-- What a full name stands for in a file. -/
def named? (t : Symbols) (file : FileId) (fullName : String) : Option Symbol :=
  ((t.messages.findIdx? fun d => d.fullName == fullName && t.sees file d.file).map .message).or
    ((t.enums.findIdx? fun d => d.fullName == fullName && t.sees file d.file).map .enumeration)

/-- What a type name stands for in a scope of a file. -/
def lookup? (t : Symbols) (file : FileId) (scope typeName : String) : Option Symbol :=
  (candidates scope typeName).findSome? (t.named? file)

end Symbols

end Protowire.Schema
