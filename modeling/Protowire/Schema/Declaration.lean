import Protowire.Schema.Basic
import Protowire.Schema.Error

/-!
# Schema/Declaration — everything the files declare, in order

`declarations` lays out the files, messages and enums of an ordered list of files in one row: a
file, then its messages, each before what is nested in it, then its enums.  Messages and enums are
numbered by where they come in the row, so the number of the message something is nested in is
known by **counting** (`MessageDescriptor.count`).

`checkDeclarations` goes along the row and refuses files in another dialect, enums without values
and names that are declared twice.
-/

namespace Protowire

/-- A full name: the name of a scope, a dot and a name; at the root, the name alone. -/
def qualify (scope name : String) : String :=
  if scope.isEmpty then name else scope ++ "." ++ name

namespace MessageDescriptor

mutual

/-- How many messages a descriptor declares: itself and those inside it. -/
def count : MessageDescriptor → Nat
  | ⟨_, _, messages, _, _, _⟩ => countAll messages + 1

/-- How many messages the descriptors declare. -/
def countAll : List MessageDescriptor → Nat
  | [] => 0
  | m :: ms => count m + countAll ms

end

end MessageDescriptor

namespace Schema

/-- Something declared in a file, with the names and the message around it. -/
structure Declared (α : Type) where
  file : FileId
  parent : Option MessageId
  /-- The full name of what it stands in: the package, or the message around it. -/
  scope : String
  name : String
  body : α

/-- The full name of what is declared. -/
def Declared.fullName {α : Type} (d : Declared α) : String :=
  qualify d.scope d.name

/-- A file, a message or an enum. -/
inductive Declaration where
  | file (f : FileDescriptor)
  | message (d : Declared MessageDescriptor)
  | enumeration (d : Declared EnumDescriptor)

/-- Enums that stand in one place. -/
def declareEnums (file : FileId) (parent : Option MessageId) (scope : String)
    (enums : List EnumDescriptor) : List Declaration :=
  enums.map fun e => .enumeration ⟨file, parent, scope, e.name, e⟩

mutual

/-- A message that gets the number `id`, and what is nested in it. -/
def declareMessage (file : FileId) (parent : Option MessageId) (scope : String) (id : MessageId) :
    MessageDescriptor → List Declaration
  | ⟨name, fields, messages, enums, options, oneofs⟩ =>
    .message ⟨file, parent, scope, name, ⟨name, fields, messages, enums, options, oneofs⟩⟩ ::
      (declareMessages file (some id) (qualify scope name) (id + 1) messages ++
        declareEnums file (some id) (qualify scope name) enums)

/-- Messages that stand in one place, of which the first gets the number `id`. -/
def declareMessages (file : FileId) (parent : Option MessageId) (scope : String) (id : MessageId) :
    List MessageDescriptor → List Declaration
  | [] => []
  | m :: ms =>
    declareMessage file parent scope id m ++ declareMessages file parent scope (id + m.count) ms

end

/-- The files from the number `file` on, whose first message gets the number `id`. -/
def declareFiles (file : FileId) (id : MessageId) : List FileDescriptor → List Declaration
  | [] => []
  | f :: fs =>
    .file f :: (declareMessages file none f.package id f.messages ++
      declareEnums file none f.package f.enums ++
        declareFiles (file + 1) (id + MessageDescriptor.countAll f.messages) fs)

/-- Everything the files declare, in order. -/
def declarations (files : List FileDescriptor) : List Declaration :=
  declareFiles 0 0 files

/-- The message declared, if it is one. -/
def Declaration.message? : Declaration → Option (Declared MessageDescriptor)
  | message d => some d
  | _ => none

/-- The enum declared, if it is one. -/
def Declaration.enumeration? : Declaration → Option (Declared EnumDescriptor)
  | enumeration d => some d
  | _ => none

/-- The full name that is declared; files declare none. -/
def Declaration.symbol? : Declaration → Option String
  | file _ => none
  | message d => some d.fullName
  | enumeration d => some d.fullName

/-- The one dialect that is understood. -/
def understoodDialect : String := "proto3"

/-- What is wrong with a declaration by itself. -/
def Declaration.fault? : Declaration → Option SchemaError
  | file f =>
    if f.dialect = understoodDialect then none else some (.unsupportedDialect f.name f.dialect)
  | message _ => none
  | enumeration d => if d.body.values.isEmpty then some (.emptyEnum d.fullName) else none

/-- Checks declarations in order, when the names in `seen` are taken. -/
def checkFrom : (seen : List String) → List Declaration → Except SchemaError Unit
  | _, [] => .ok ()
  | seen, d :: ds =>
    match d.fault?, d.symbol? with
    | some fault, _ => .error fault
    | none, none => checkFrom seen ds
    | none, some name =>
      if seen.contains name then .error (.duplicateName name) else checkFrom (name :: seen) ds

/-- Checks everything that is declared: the first fault refuses it all. -/
def checkDeclarations (ds : List Declaration) : Except SchemaError Unit :=
  checkFrom [] ds

end Schema

end Protowire
