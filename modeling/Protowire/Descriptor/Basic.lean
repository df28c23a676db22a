/-!
# Descriptor/Basic — files, messages, fields and enums as a compiler describes them

A descriptor says what stands in a schema file, before any name in it has been bound to what it
means: types are referred to by name, labels and types by number, and nothing has been checked.
-/

namespace Protowire

/-- How many values a field holds, as descriptors number it. -/
inductive FieldLabel where
  | optional
  | required
  | repeated
  deriving DecidableEq, Repr

/-- The label with the given number. -/
def FieldLabel.ofCode? (code : Int32) : Option FieldLabel :=
  match code.toInt with
  | 1 => some optional
  | 2 => some required
  | 3 => some repeated
  | _ => none

/-- The type of a field, as descriptors number it. -/
inductive FieldKind where
  | double
  | float
  | int64
  | uint64
  | int32
  | fixed64
  | fixed32
  | bool
  | string
  | group
  | message
  | bytes
  | uint32
  | enumeration
  | sfixed32
  | sfixed64
  | sint32
  | sint64
  deriving DecidableEq, Repr

/-- The type with the given number. -/
def FieldKind.ofCode? (code : Int32) : Option FieldKind :=
  match code.toInt with
  | 1 => some double
  | 2 => some float
  | 3 => some int64
  | 4 => some uint64
  | 5 => some int32
  | 6 => some fixed64
  | 7 => some fixed32
  | 8 => some bool
  | 9 => some string
  | 10 => some group
  | 11 => some message
  | 12 => some bytes
  | 13 => some uint32
  | 14 => some enumeration
  | 15 => some sfixed32
  | 16 => some sfixed64
  | 17 => some sint32
  | 18 => some sint64
  | _ => none

/-- Options of a field. -/
structure FieldOptions where
  packed : Option Bool
  deriving DecidableEq, Repr

/-- A field of a message. -/
structure FieldDescriptor where
  name : String
  number : Int32
  /-- The number of a label; zero stands for none. -/
  label : Int32
  /-- The number of a type; zero stands for none. -/
  typeCode : Int32
  /-- The name of the message or enum the field holds. -/
  typeName : String
  options : Option FieldOptions
  /-- The position of the oneof the field belongs to. -/
  oneofIndex : Option Int32
  jsonName : String
  /-- Is the field one whose presence is tracked by a oneof of its own? -/
  tracksPresence : Bool
  deriving DecidableEq, Repr

/-- The packed option, where given. -/
def FieldDescriptor.packed? (f : FieldDescriptor) : Option Bool :=
  f.options.bind (·.packed)

/-- A oneof of a message. -/
structure OneofDescriptor where
  name : String
  deriving DecidableEq, Repr

/-- A value of an enum. -/
structure EnumValueDescriptor where
  name : String
  number : Int32
  deriving DecidableEq, Repr

/-- An enum. -/
structure EnumDescriptor where
  name : String
  values : List EnumValueDescriptor
  deriving DecidableEq, Repr

/-- Options of a message. -/
structure MessageOptions where
  /-- Is the message the entry of a map field? -/
  mapEntry : Option Bool
  deriving DecidableEq, Repr

/-- A message with the messages and enums declared inside it. -/
structure MessageDescriptor where
  name : String
  fields : List FieldDescriptor
  messages : List MessageDescriptor
  enums : List EnumDescriptor
  options : Option MessageOptions
  oneofs : List OneofDescriptor

/-- Is the message the entry of a map field? -/
def MessageDescriptor.isMapEntry (m : MessageDescriptor) : Bool :=
  (m.options.bind (·.mapEntry)).getD false

/-- A schema file. -/
structure FileDescriptor where
  name : String
  package : String
  /-- The names of the files it imports. -/
  imports : List String
  messages : List MessageDescriptor
  enums : List EnumDescriptor
  /-- The dialect the file is written in. -/
  dialect : String

end Protowire
