import Protowire.Wire.Reader
import Protowire.Wire.Zigzag

/-!
# Wire/Scalar — the fifteen scalar kinds and their payloads

A scalar kind fixes the type of its values (`Scalar.Value`), the framing they travel in
(`Scalar.wireType`), the payload that carries a value (`Scalar.toPayload`) and **how a value is
read** (`Scalar.read`): each kind by the step its payload asks for.  Floating-point values are
**bit patterns**, so that nothing is lost of a NaN or of a negative zero.

Integers narrower than 64 bits are read by dropping the high bits of the word, and any non-zero
word is true.
-/

namespace Protowire

/-- A scalar kind. -/
inductive Scalar where
  | double
  | float
  | int32
  | int64
  | uint32
  | uint64
  | sint32
  | sint64
  | fixed32
  | fixed64
  | sfixed32
  | sfixed64
  | bool
  | string
  | bytes
  deriving DecidableEq, Repr

namespace Scalar

/-- The kind enum fields travel as: an enum value is its number. -/
abbrev enumeration : Scalar := int32

/-- Every kind. -/
def all : List Scalar :=
  [double, float, int32, int64, uint32, uint64, sint32, sint64, fixed32, fixed64, sfixed32,
    sfixed64, bool, string, bytes]

/-- The name of the kind in a schema. -/
def name : Scalar → String
  | double => "double"
  | float => "float"
  | int32 => "int32"
  | int64 => "int64"
  | uint32 => "uint32"
  | uint64 => "uint64"
  | sint32 => "sint32"
  | sint64 => "sint64"
  | fixed32 => "fixed32"
  | fixed64 => "fixed64"
  | sfixed32 => "sfixed32"
  | sfixed64 => "sfixed64"
  | bool => "bool"
  | string => "string"
  | bytes => "bytes"

/-- The kind of the given name. -/
def ofName? (name : String) : Option Scalar :=
  all.find? fun s => s.name == name

/-- The framing of a single value. -/
def wireType : Scalar → WireType
  | int32 | int64 | uint32 | uint64 | sint32 | sint64 | bool => .varint
  | fixed64 | sfixed64 | double => .fixed64
  | fixed32 | sfixed32 | float => .fixed32
  | string | bytes => .lengthDelimited

/-- May a list of values share one delimited payload?  All numeric kinds may. -/
def isPackable : Scalar → Bool
  | string | bytes => false
  | _ => true

/-- May the kind be the key of a map? -/
def isMapKey : Scalar → Bool
  | double | float | bytes => false
  | _ => true

/-- Is the kind a floating-point one? -/
def isFloatingPoint : Scalar → Bool
  | double | float => true
  | _ => false

/-- The values of a kind. -/
@[reducible] def Value : Scalar → Type
  | double | uint64 | fixed64 => UInt64
  | float | uint32 | fixed32 => UInt32
  | int32 | sint32 | sfixed32 => Int32
  | int64 | sint64 | sfixed64 => Int64
  | bool => Bool
  | string => String
  | bytes => Bytes

instance decidableEqValue : (s : Scalar) → DecidableEq s.Value
  | double | uint64 | fixed64 => inferInstanceAs (DecidableEq UInt64)
  | float | uint32 | fixed32 => inferInstanceAs (DecidableEq UInt32)
  | int32 | sint32 | sfixed32 => inferInstanceAs (DecidableEq Int32)
  | int64 | sint64 | sfixed64 => inferInstanceAs (DecidableEq Int64)
  | bool => inferInstanceAs (DecidableEq Bool)
  | string => inferInstanceAs (DecidableEq String)
  | bytes => inferInstanceAs (DecidableEq (List UInt8))

/-- The value a field has when it is not in the input. -/
def zero : (s : Scalar) → s.Value
  | double | uint64 | fixed64 => (0 : UInt64)
  | float | uint32 | fixed32 => (0 : UInt32)
  | int32 | sint32 | sfixed32 => (0 : Int32)
  | int64 | sint64 | sfixed64 => (0 : Int64)
  | bool => false
  | string => ""
  | bytes => ([] : Bytes)

/-- The payload that carries a value. -/
def toPayload : (s : Scalar) → s.Value → Payload
  | int32, (v : Int32) => .varint v.toInt64.toUInt64
  | int64, (v : Int64) => .varint v.toUInt64
  | uint32, (v : UInt32) => .varint v.toUInt64
  | uint64, (v : UInt64) => .varint v
  | bool, (v : Bool) => .varint v.toUInt64
  | sint32, (v : Int32) => .varint (Zigzag.encode32 v).toUInt64
  | sint64, (v : Int64) => .varint (Zigzag.encode64 v)
  | fixed32, (v : UInt32) => .fixed32 v
  | sfixed32, (v : Int32) => .fixed32 v.toUInt32
  | float, (v : UInt32) => .fixed32 v
  | fixed64, (v : UInt64) => .fixed64 v
  | sfixed64, (v : Int64) => .fixed64 v.toUInt64
  | double, (v : UInt64) => .fixed64 v
  | string, (v : String) => .delimited (Bytes.ofString v)
  | bytes, (v : Bytes) => .delimited v

/-- The bytes of a field: its tag, then its payload. -/
def encodeField (s : Scalar) (number : Nat) (v : s.Value) : Bytes :=
  Tag.encode number s.wireType ++ (s.toPayload v).encode

/-- How many bytes a field takes, counted without writing them. -/
def fieldSize (s : Scalar) (number : Nat) (v : s.Value) : Nat :=
  Tag.size number + (s.toPayload v).size

/-- Reads one value, whatever framing the field had.  Text must be UTF-8; a fault of text has the
offset at which its length starts. -/
def read : (s : Scalar) → Decode s.Value
  | int32 => return (← Reader.varint).toUInt32.toInt32
  | int64 => return (← Reader.varint).toInt64
  | uint32 => return (← Reader.varint).toUInt32
  | uint64 => Reader.varint
  | bool => return (← Reader.varint) != 0
  | sint32 => return Zigzag.decode32 (← Reader.varint).toUInt32
  | sint64 => return Zigzag.decode64 (← Reader.varint)
  | fixed32 => Reader.fixed32
  | sfixed32 => return (← Reader.fixed32).toInt32
  | float => Reader.fixed32
  | fixed64 => Reader.fixed64
  | sfixed64 => return (← Reader.fixed64).toInt64
  | double => Reader.fixed64
  | bytes => Reader.delimited
  | string => do
    let offset := (← get).offset
    match Bytes.toString? (← Reader.delimited) with
    | some text => return text
    | none => throw (.invalidUtf8 offset)

/-- Reads one value of a field framed as given. -/
def merge (s : Scalar) (wireType : WireType) : Decode s.Value := do
  Decode.ofExcept (s.wireType.check wireType)
  s.read

/-- The order of the values of a kind: numbers by size, false before true, text and byte strings
lexicographically, floating-point values by their bits. -/
def lt : (s : Scalar) → s.Value → s.Value → Bool
  | double, (a : UInt64), b | uint64, a, b | fixed64, a, b => decide (a < b)
  | float, (a : UInt32), b | uint32, a, b | fixed32, a, b => decide (a < b)
  | int32, (a : Int32), b | sint32, a, b | sfixed32, a, b => decide (a < b)
  | int64, (a : Int64), b | sint64, a, b | sfixed64, a, b => decide (a < b)
  | bool, (a : Bool), b => !a && b
  | string, (a : String), b => decide (a < b)
  | bytes, (a : List UInt8), b => decide (a < b)

/-- The order of the values of a kind is transitive. -/
theorem lt_trans {s : Scalar} {a b c : s.Value} (hab : s.lt a b = true) (hbc : s.lt b c = true) :
    s.lt a c = true := by
  cases s <;> simp only [lt, decide_eq_true_eq, Bool.and_eq_true, Bool.not_eq_true'] at *
  case double | uint64 | fixed64 => exact UInt64.lt_trans hab hbc
  case float | uint32 | fixed32 => exact UInt32.lt_trans hab hbc
  case int32 | sint32 | sfixed32 => exact Int32.lt_trans hab hbc
  case int64 | sint64 | sfixed64 => exact Int64.lt_trans hab hbc
  case bool => exact ⟨hab.1, hbc.2⟩
  case string => exact String.lt_trans hab hbc
  case bytes => exact List.lt_trans hab hbc

end Scalar

/-- A field that holds a delimited body: tag, size, then the body. -/
def Tag.encodeDelimited (number size : Nat) (body : Bytes) : Bytes :=
  Tag.encode number .lengthDelimited ++ (Varint.encode (UInt64.ofNat size) ++ body)

/-- How many bytes a field takes whose delimited body has the given size. -/
def Tag.delimitedSize (number size : Nat) : Nat :=
  Tag.size number + (Varint.size (UInt64.ofNat size) + size)

end Protowire
