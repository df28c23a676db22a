import Protowire.Wire.Scalar

/-!
# Message/Layout — which fields each message type has

A layout lists the slots of a message type in the order they are written: fields, each with a name,
a number and a shape, and oneofs, each with its members.  `MessageType.layout` is the table of the
messages this library knows: a few samples, the descriptors of schemas, and the request and
response of a code generator.

A message type may hold messages of its own type (`foo`, `messageDescriptor`).
-/

namespace Protowire

/-- The message types in the table. -/
inductive MessageType where
  | test1
  | basicRepeated
  | repeatedStrings
  | nestedMessage
  | nestedInner
  | basicMap
  | foo
  | version
  | generatorRequest
  | generatorResponse
  | responseFile
  | fileDescriptorSet
  | fileDescriptor
  | messageDescriptor
  | messageOptions
  | fieldDescriptor
  | fieldOptions
  | oneofDescriptor
  | enumDescriptor
  | enumValueDescriptor
  deriving DecidableEq, Repr

/-- What one value of a field is. -/
inductive Element where
  | scalar (s : Scalar)
  | message (t : MessageType)
  deriving DecidableEq, Repr

/-- The framing of a single value. -/
def Element.wireType : Element → WireType
  | scalar s => s.wireType
  | message _ => .lengthDelimited

/-- How many values a field holds, and how. -/
inductive Shape where
  /-- One value; a zero is not written and means that the field is not in the input. -/
  | plain (s : Scalar)
  /-- At most one value; a zero that is present is written. -/
  | optional (e : Element)
  /-- A list; a packed one shares a single delimited payload. -/
  | repeated (e : Element) (packed : Bool)
  /-- Values under keys, each pair in an entry of its own. -/
  | map (key value : Scalar)
  deriving DecidableEq, Repr

/-- One alternative of a oneof. -/
structure Member where
  name : String
  number : Nat
  element : Element
  deriving DecidableEq, Repr

/-- A place in a message: a field, or a oneof of which at most one member is set. -/
inductive Slot where
  | field (name : String) (number : Nat) (shape : Shape)
  | oneof (name : String) (members : List Member)
  deriving DecidableEq, Repr

/-- The field numbers a slot answers to. -/
def Slot.numbers : Slot → List Nat
  | field _ number _ => [number]
  | oneof _ members => members.map (·.number)

/-- The name of a slot. -/
def Slot.name : Slot → String
  | field name _ _ => name
  | oneof name _ => name

/-- The slots of a message type, in the order they are written. -/
abbrev Layout := List Slot

namespace MessageType

open Slot Shape

/-- The slots of each message type. -/
@[reducible] def layout : MessageType → Layout
  | test1 => [field "a" 1 (plain .int32)]
  | basicRepeated =>
    [field "a" 1 (repeated (.scalar .bool) false),
     field "b" 2 (plain .int32),
     field "c" 3 (repeated (.scalar .float) true)]
  | repeatedStrings =>
    [field "a" 1 (repeated (.scalar .string) false),
     field "b" 2 (plain .int32)]
  | nestedMessage => [field "a" 1 (optional (.message nestedInner))]
  | nestedInner => [field "b" 1 (plain .string)]
  | basicMap => [field "map_field" 1 (map .string .int32)]
  | foo =>
    [field "a" 1 (plain .int32),
     field "b" 2 (plain .double),
     field "c" 3 (plain .sint32),
     field "d" 4 (plain .int64),
     field "e" 5 (repeated (.scalar .uint32) true),
     field "f" 6 (plain .uint64),
     field "g" 7 (plain .sint64),
     field "h" 8 (plain .fixed32),
     field "i" 9 (plain .fixed64),
     field "j" 10 (plain .sfixed32),
     field "k" 11 (plain .sfixed64),
     field "l" 12 (plain .float),
     field "m" 13 (plain .enumeration),
     field "n" 14 (plain .bytes),
     field "o" 15 (plain .bool),
     field "p" 16 (repeated (.scalar .string) false),
     field "child" 17 (optional (.message foo)),
     oneof "choice" [⟨"name", 18, .scalar .string⟩, ⟨"id", 19, .scalar .int32⟩]]
  | version =>
    [field "major" 1 (plain .int32),
     field "minor" 2 (plain .int32),
     field "patch" 3 (plain .int32),
     field "suffix" 4 (plain .string)]
  | generatorRequest =>
    [field "file_to_generate" 1 (repeated (.scalar .string) false),
     field "parameter" 2 (plain .string),
     field "compiler_version" 3 (optional (.message version)),
     field "proto_file" 15 (repeated (.message fileDescriptor) false)]
  | generatorResponse =>
    [field "error" 1 (optional (.scalar .string)),
     field "supported_features" 2 (plain .uint64),
     field "file" 15 (repeated (.message responseFile) false)]
  | responseFile =>
    [field "name" 1 (plain .string),
     field "insertion_point" 2 (plain .string),
     field "content" 15 (plain .string)]
  | fileDescriptorSet => [field "file" 1 (repeated (.message fileDescriptor) false)]
  | fileDescriptor =>
    [field "name" 1 (plain .string),
     field "package" 2 (plain .string),
     field "dependency" 3 (repeated (.scalar .string) false),
     field "message_type" 4 (repeated (.message messageDescriptor) false),
     field "enum_type" 5 (repeated (.message enumDescriptor) false),
     field "syntax" 12 (plain .string)]
  | messageDescriptor =>
    [field "name" 1 (plain .string),
     field "field" 2 (repeated (.message fieldDescriptor) false),
     field "nested_type" 3 (repeated (.message messageDescriptor) false),
     field "enum_type" 4 (repeated (.message enumDescriptor) false),
     field "options" 7 (optional (.message messageOptions)),
     field "oneof_decl" 8 (repeated (.message oneofDescriptor) false)]
  | messageOptions => [field "map_entry" 7 (optional (.scalar .bool))]
  | fieldDescriptor =>
    [field "name" 1 (plain .string),
     field "number" 3 (plain .int32),
     field "label" 4 (plain .enumeration),
     field "type" 5 (plain .enumeration),
     field "type_name" 6 (plain .string),
     field "options" 8 (optional (.message fieldOptions)),
     field "oneof_index" 9 (optional (.scalar .int32)),
     field "json_name" 10 (plain .string),
     field "proto3_optional" 17 (plain .bool)]
  | fieldOptions => [field "packed" 2 (optional (.scalar .bool))]
  | oneofDescriptor => [field "name" 1 (plain .string)]
  | enumDescriptor =>
    [field "name" 1 (plain .string),
     field "value" 2 (repeated (.message enumValueDescriptor) false)]
  | enumValueDescriptor =>
    [field "name" 1 (plain .string),
     field "number" 2 (plain .int32)]

end MessageType

end Protowire
