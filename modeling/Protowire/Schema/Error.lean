/-!
# Schema/Error — why a set of files is no schema

Every fault names what it is about by its full name: packages and enclosing messages in front,
with dots between.
-/

namespace Protowire

/-- What is wrong with the message a map field takes its keys and values from. -/
inductive EntryFault where
  | notRepeated
  | fieldCount
  | missingKey
  | missingValue
  | repeatedPart
  | badKey
  deriving DecidableEq, Repr

/-- The words for what is wrong. -/
def EntryFault.reason : EntryFault → String
  | notRepeated => "map field must be repeated"
  | fieldCount => "entry must have exactly two fields"
  | missingKey => "missing key field 1"
  | missingValue => "missing value field 2"
  | repeatedPart => "key and value must be singular"
  | badKey => "key must be an integral, bool or string type"

/-- Why a set of files is no schema. -/
inductive SchemaError where
  /-- A file imports a file that is not there. -/
  | missingImport (file dependency : String)
  /-- Files that import each other; the first name comes again at the end. -/
  | importCycle (cycle : List String)
  /-- Two files, or two messages or enums, of one name. -/
  | duplicateName (name : String)
  /-- A field of a type that is not there, or not seen from where the field stands. -/
  | unresolvedType (field typeName : String)
  /-- A field number that is out of range or reserved. -/
  | invalidNumber (field : String) (number : Int32)
  /-- Two fields of one message with one number. -/
  | duplicateNumber (message : String) (number : Nat)
  /-- A field that is packed though its values cannot be. -/
  | notPackable (field : String)
  /-- A map field that cannot be one. -/
  | badMapEntry (field : String) (fault : EntryFault)
  /-- A field of a oneof that is not there. -/
  | missingOneof (field : String) (index : Int32)
  /-- An enum without values. -/
  | emptyEnum (name : String)
  /-- A file in a dialect other than the one understood. -/
  | unsupportedDialect (file dialect : String)
  /-- A field with a label that has no meaning. -/
  | unsupportedLabel (field : String) (label : Int32)
  /-- A field with a type that has no meaning. -/
  | unsupportedType (field : String) (typeCode : Int32)
  deriving DecidableEq, Repr

/-- The text shown to the user. -/
def SchemaError.message : SchemaError → String
  | missingImport file dependency =>
    s!"'{file}' imports '{dependency}', which is not part of the request"
  | importCycle cycle => "import cycle: " ++ " -> ".intercalate cycle
  | duplicateName name => s!"'{name}' is defined more than once"
  | unresolvedType field typeName => s!"field '{field}' refers to unknown type '{typeName}'"
  | invalidNumber field number => s!"field '{field}' has invalid number {number.toInt}"
  | duplicateNumber message number =>
    s!"message '{message}' uses field number {number} more than once"
  | notPackable field => s!"field '{field}' cannot be packed"
  | badMapEntry field fault => s!"invalid map entry for field '{field}': {fault.reason}"
  | missingOneof field index => s!"field '{field}' refers to missing oneof {index.toInt}"
  | emptyEnum name => s!"enum '{name}' has no values"
  | unsupportedDialect file dialect => s!"'{file}' uses unsupported syntax '{dialect}'"
  | unsupportedLabel field label => s!"field '{field}' has unsupported label {label.toInt}"
  | unsupportedType field typeCode => s!"field '{field}' has unsupported type {typeCode.toInt}"

end Protowire
