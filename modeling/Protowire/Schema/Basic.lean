import Protowire.Descriptor.Wire
import Protowire.Digest.Blake3
import Protowire.Text.Hex
import Protowire.Wire.Scalar

/-!
# Schema/Basic — files, messages and enums that know one another

A schema numbers its files, messages and enums, and everything refers to everything else **by
number**, so that messages may hold one another.  Files are numbered after what they import;
messages and enums in the order they are declared, a message before what is nested in it.

What belongs together is written down **at both ends**: a message has its parent and lists what is
nested in it, a file lists what stands at its top (`Schema.Contents`), and a oneof lists the
positions of the fields that name it.
-/

namespace Protowire

namespace Schema

/-- The number of a file. -/
abbrev FileId := Nat

/-- The number of a message. -/
abbrev MessageId := Nat

/-- The number of an enum. -/
abbrev EnumId := Nat

/-- What a field holds. -/
inductive FieldType where
  | scalar (kind : Scalar)
  | enumeration (id : EnumId)
  | message (id : MessageId)
  deriving DecidableEq, Repr

/-- May a list of values share one delimited payload? -/
def FieldType.isPackable : FieldType → Bool
  | scalar kind => kind.isPackable
  | enumeration _ => true
  | message _ => false

/-- What a map field maps from and to, and the message that says so. -/
structure MapEntry where
  entry : MessageId
  key : Scalar
  value : FieldType
  deriving DecidableEq, Repr

/-- A field of a message. -/
structure Field where
  name : String
  number : Nat
  type : FieldType
  isRepeated : Bool
  /-- Are the values of a repeated field packed? -/
  isPacked : Bool
  /-- What the field maps, for a map field. -/
  map : Option MapEntry
  /-- The position of its oneof among those of the message. -/
  oneof : Option Nat
  deriving DecidableEq, Repr

/-- A oneof of a message. -/
structure Oneof where
  name : String
  /-- The positions of its members among the fields of the message. -/
  fields : List Nat
  deriving DecidableEq, Repr

/-- What stands directly in a file or in a message, in the order it is declared. -/
structure Contents where
  messages : List MessageId
  enums : List EnumId
  deriving DecidableEq, Repr

/-- A message. -/
structure Message where
  name : String
  /-- The name with packages and enclosing messages in front. -/
  fullName : String
  file : FileId
  /-- The message it is nested in. -/
  parent : Option MessageId
  fields : List Field
  /-- Its oneofs, without those that only track presence. -/
  oneofs : List Oneof
  /-- What is nested in it. -/
  contents : Contents
  /-- Is it the entry of a map field? -/
  isMapEntry : Bool
  deriving DecidableEq, Repr

namespace Message

/-- The fields by ascending number. -/
def byNumber (m : Message) : List Field :=
  m.fields.mergeSort fun a b => a.number ≤ b.number

/-- The positions of the members of a oneof among the fields. -/
def members (m : Message) (oneof : Nat) : List Nat :=
  (m.oneofs[oneof]?).elim [] (·.fields)

/-- The messages a value holds directly: those of its singular fields. -/
def embeds (m : Message) : List MessageId :=
  m.fields.filterMap fun f =>
    match f.type, f.isRepeated with
    | .message target, false => some target
    | _, _ => none

end Message

/-- An enum. -/
structure Enum where
  name : String
  /-- The name with packages and enclosing messages in front. -/
  fullName : String
  file : FileId
  /-- The message it is nested in. -/
  parent : Option MessageId
  /-- The values in the order they are declared; numbers may repeat. -/
  values : List EnumValueDescriptor
  deriving DecidableEq, Repr

/-- The value of a field that is not in the input: the first that is not negative, or else the
first. -/
def Enum.default? (e : Enum) : Option EnumValueDescriptor :=
  (e.values.find? fun v => decide (0 ≤ v.number)).or e.values.head?

/-- A file. -/
structure File where
  /-- What the file says. -/
  source : FileDescriptor
  /-- The files it imports, in the order it names them. -/
  imports : List FileId
  /-- What stands at its top. -/
  contents : Contents

/-- The first half of a digest of the file, in hexadecimal. -/
def File.digest (f : File) : String :=
  Bytes.toHex ((Blake3.hash f.source.toMessage.encode).take 8)

end Schema

/-- Files, messages and enums that know one another. -/
structure Schema where
  files : List Schema.File
  messages : List Schema.Message
  enums : List Schema.Enum

namespace Schema

/-- The file of a name. -/
def fileNamed? (s : Schema) (name : String) : Option FileId :=
  s.files.findIdx? fun f => f.source.name == name

/-- A full name without the dot that may stand in front of it. -/
def withoutDot (name : String) : String :=
  match name.toList with
  | '.' :: rest => String.ofList rest
  | _ => name

/-- The message of a full name. -/
def messageNamed? (s : Schema) (name : String) : Option MessageId :=
  s.messages.findIdx? fun m => m.fullName == withoutDot name

/-- The enum of a full name. -/
def enumNamed? (s : Schema) (name : String) : Option EnumId :=
  s.enums.findIdx? fun e => e.fullName == withoutDot name

/-- A place that messages and enums stand in: the top of a file, or a message. -/
inductive Place where
  | file (id : FileId)
  | message (id : MessageId)
  deriving DecidableEq

/-- What the file or the message of a place lists. -/
def contents (s : Schema) : Place → Contents
  | .file id => (s.files[id]?).elim ⟨[], []⟩ (·.contents)
  | .message id => (s.messages[id]?).elim ⟨[], []⟩ (·.contents)

/-- The messages at the top of a file. -/
def topMessages (s : Schema) (file : FileId) : List MessageId :=
  (s.contents (.file file)).messages

/-- The enums at the top of a file. -/
def topEnums (s : Schema) (file : FileId) : List EnumId :=
  (s.contents (.file file)).enums

/-- The messages nested directly in a message. -/
def nestedMessages (s : Schema) (id : MessageId) : List MessageId :=
  (s.contents (.message id)).messages

/-- The enums nested directly in a message. -/
def nestedEnums (s : Schema) (id : MessageId) : List EnumId :=
  (s.contents (.message id)).enums

/-- The messages nested directly in a message, as far as there are such behind it. -/
def messagesInside (s : Schema) (id : MessageId) : List MessageId :=
  (s.nestedMessages id).filter fun child => id < child ∧ child < s.messages.length

/-- The enums nested directly in a message, as far as there are such. -/
def enumsInside (s : Schema) (id : MessageId) : List EnumId :=
  (s.nestedEnums id).filter fun child => child < s.enums.length

theorem lt_of_mem_messagesInside {s : Schema} {id child : Nat} (h : child ∈ s.messagesInside id) :
    id < child ∧ child < s.messages.length :=
  of_decide_eq_true (List.mem_filter.1 h).2

theorem lt_of_mem_enumsInside {s : Schema} {id child : Nat} (h : child ∈ s.enumsInside id) :
    child < s.enums.length :=
  of_decide_eq_true (List.mem_filter.1 h).2

/-- The message a message is nested in, if it is declared before it. -/
def parentBelow? (s : Schema) (id : MessageId) : Option { p : MessageId // p < id } :=
  match (s.messages[id]?).bind (·.parent) with
  | some p => if h : p < id then some ⟨p, h⟩ else none
  | none => none

/-- A message and the messages around it, innermost first. -/
def enclosing (s : Schema) (id : MessageId) : List MessageId :=
  match s.parentBelow? id with
  | some ⟨p, _⟩ => id :: s.enclosing p
  | none => [id]
termination_by id

/-- The messages around what is declared in `parent`, outermost first. -/
def ancestors (s : Schema) (parent : Option MessageId) : List MessageId :=
  (parent.elim [] s.enclosing).reverse

end Schema

end Protowire
