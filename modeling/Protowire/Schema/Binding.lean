import Protowire.Schema.Scope
import Protowire.Wire.Tag

/-!
# Schema/Binding — fields with their types and oneofs

A field is bound when its number, label, type and packing have been checked, **in this order**, and
its type name stands for what it means.  The fields of a message have different numbers.

A field whose presence is tracked has a oneof of its own, which is no oneof of the message; the
others are numbered anew, in the order they are declared (`keptOneofs`).  A field that is bound to
one of them **joins it** (`joinOneof`), so each lists its members in the order of the fields.
-/

namespace Protowire

/-- The scalar kind a type is, if it is one. -/
def FieldKind.scalar? : FieldKind → Option Scalar
  | double => some .double
  | float => some .float
  | int64 => some .int64
  | uint64 => some .uint64
  | int32 => some .int32
  | fixed64 => some .fixed64
  | fixed32 => some .fixed32
  | bool => some .bool
  | string => some .string
  | bytes => some .bytes
  | uint32 => some .uint32
  | sfixed32 => some .sfixed32
  | sfixed64 => some .sfixed64
  | sint32 => some .sint32
  | sint64 => some .sint64
  | group | message | enumeration => none

namespace MessageDescriptor

/-- The positions of the oneofs that only track presence, as the fields give them. -/
def presenceOneofs (m : MessageDescriptor) : List Int32 :=
  (m.fields.filter (·.tracksPresence)).filterMap (·.oneofIndex)

/-- The positions of the oneofs that do more than track presence. -/
def keptOneofs (m : MessageDescriptor) : List Nat :=
  (List.range m.oneofs.length).filter fun i =>
    !m.presenceOneofs.any fun index => index.toInt == (i : Int)

/-- The names of the oneofs that do more than track presence. -/
def oneofNames (m : MessageDescriptor) : List String :=
  m.keptOneofs.filterMap fun i => (m.oneofs[i]?).map (·.name)

/-- The new number of the oneof declared at a position. -/
def oneofSlot? (m : MessageDescriptor) (index : Int32) : Option Nat :=
  m.keptOneofs.findIdx? fun (i : Nat) => index.toInt == (i : Int)

end MessageDescriptor

namespace Schema

/-- The number of a field, in the range a schema may use. -/
def bindNumber (field : String) (number : Int32) : Except SchemaError Nat :=
  if 0 < number.toInt ∧ FieldNumber.isValid number.toInt.toNat then .ok number.toInt.toNat
  else .error (.invalidNumber field number)

/-- Is a field with the label repeated?  No label stands for a single value. -/
def bindLabel (field : String) (label : Int32) : Except SchemaError Bool :=
  if label = 0 then .ok false
  else
    match FieldLabel.ofCode? label with
    | some .optional => .ok false
    | some .repeated => .ok true
    | _ => .error (.unsupportedLabel field label)

/-- What a field holds.  Where only the name of a type is given, it may be a message or an enum. -/
def bindType (t : Symbols) (file : FileId) (scope : String) (f : FieldDescriptor) :
    Except SchemaError FieldType :=
  let field := qualify scope f.name
  let unresolved : Except SchemaError FieldType := .error (.unresolvedType field f.typeName)
  let unsupported : Except SchemaError FieldType := .error (.unsupportedType field f.typeCode)
  let symbol? := t.lookup? file scope f.typeName
  match FieldKind.ofCode? f.typeCode with
  | some .message =>
    match symbol? with
    | some (.message id) => .ok (.message id)
    | _ => unresolved
  | some .enumeration =>
    match symbol? with
    | some (.enumeration id) => .ok (.enumeration id)
    | _ => unresolved
  | some kind => kind.scalar?.elim unsupported fun s => .ok (.scalar s)
  | none =>
    if f.typeCode = 0 ∧ f.typeName ≠ "" then
      match symbol? with
      | some (.message id) => .ok (.message id)
      | some (.enumeration id) => .ok (.enumeration id)
      | none => unresolved
    else unsupported

/-- A field by itself, in no oneof and as no map. -/
def bindField (t : Symbols) (file : FileId) (scope : String) (f : FieldDescriptor) :
    Except SchemaError Field := do
  let field := qualify scope f.name
  let number ← bindNumber field f.number
  let isRepeated ← bindLabel field f.label
  let type ← bindType t file scope f
  let mayPack := isRepeated && type.isPackable
  if f.packed? = some true ∧ mayPack = false then throw (.notPackable field)
  return { name := f.name, number, type, isRepeated, isPacked := mayPack && f.packed?.getD true
           map := none, oneof := none }

/-- The oneof a field belongs to. -/
def bindOneof (m : MessageDescriptor) (scope : String) (f : FieldDescriptor) :
    Except SchemaError (Option Nat) :=
  match f.oneofIndex, f.tracksPresence with
  | some index, false =>
    (m.oneofSlot? index).elim (.error (.missingOneof (qualify scope f.name) index)) fun slot =>
      .ok (some slot)
  | _, _ => .ok none

/-- Fields of a message, when the numbers in `seen` are taken. -/
def bindFields (t : Symbols) (d : Declared MessageDescriptor) :
    (seen : List Nat) → List FieldDescriptor → Except SchemaError (List Field)
  | _, [] => .ok []
  | seen, f :: fs => do
    let field ← bindField t d.file d.fullName f
    if seen.contains field.number then throw (.duplicateNumber d.fullName field.number)
    let oneof ← bindOneof d.body d.fullName f
    let fields ← bindFields t d (field.number :: seen) fs
    return { field with oneof } :: fields

/-- The oneofs once a field at a position has joined the one of its slot. -/
def joinOneof (oneofs : List Oneof) (slot : Option Nat) (position : Nat) : List Oneof :=
  slot.elim oneofs fun k => oneofs.modify k fun o => { o with fields := o.fields ++ [position] }

/-- Oneofs with the names, when the fields have the slots. -/
def fillOneofs (names : List String) (slots : List (Option Nat)) : List Oneof :=
  slots.zipIdx.foldl (fun oneofs slot => joinOneof oneofs slot.1 slot.2) (names.map (⟨·, []⟩))

/-- A message with its fields bound. -/
def bindMessage (t : Symbols) (d : Declared MessageDescriptor) (contents : Contents) :
    Except SchemaError Message := do
  let fields ← bindFields t d [] d.body.fields
  return { name := d.name, fullName := d.fullName, file := d.file, parent := d.parent, fields
           oneofs := fillOneofs d.body.oneofNames (fields.map (·.oneof)), contents
           isMapEntry := d.body.isMapEntry }

end Schema

end Protowire
