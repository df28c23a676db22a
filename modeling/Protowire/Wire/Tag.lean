import Protowire.Wire.Error
import Protowire.Wire.Varint

/-!
# Wire/Tag — field numbers and the tags that carry them

A field begins with a tag: the varint of eight times its number plus the code of its framing.
Numbers run from 1 to 2²⁹ − 1; a schema may not use the block 19000 – 19999, which the wire format
keeps for itself, but a reader accepts it.
-/

namespace Protowire

namespace FieldNumber

/-- The largest field number. -/
def max : Nat := 536870911

/-- May a schema give this number to a field? -/
def isValid (number : Nat) : Bool :=
  1 ≤ number && number ≤ max && !(19000 ≤ number && number ≤ 19999)

end FieldNumber

namespace Tag

/-- The word that stands for a number and a framing. -/
def key (number : Nat) (wireType : WireType) : UInt64 :=
  UInt64.ofNat (8 * number + wireType.code)

/-- The bytes of a tag. -/
def encode (number : Nat) (wireType : WireType) : Bytes :=
  Varint.encode (key number wireType)

/-- The length of a tag, which its framing does not change. -/
def size (number : Nat) : Nat :=
  Varint.size (UInt64.ofNat (8 * number))

/-- The number and framing a word stands for.  A bad framing is reported before a bad number. -/
def decode (key : UInt64) (offset : Nat) : Except DecodeError (Nat × WireType) :=
  let code := key.toNat % 8
  let number := key.toNat / 8
  match WireType.ofCode? code with
  | none => .error (.unsupportedWireType code offset)
  | some wireType =>
    if 1 ≤ number ∧ number ≤ FieldNumber.max then .ok (number, wireType)
    else .error (.invalidFieldNumber number offset)

end Tag

/-- Refuses a framing other than the expected one. -/
def WireType.check (expected actual : WireType) : Except DecodeError Unit :=
  if expected = actual then .ok () else .error (.wireTypeMismatch expected actual)

end Protowire
