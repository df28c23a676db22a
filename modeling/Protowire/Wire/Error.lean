import Protowire.Wire.WireType

/-!
# Wire/Error — why bytes are refused, and why a buffer is

Every fault but a wire type mismatch says **where** it is: an offset from the start of the
outermost input, also when the fault lies inside an embedded payload.
-/

namespace Protowire

/-- Why bytes were refused. -/
inductive DecodeError where
  /-- A varint that does not end, or that does not fit in 64 bits. -/
  | malformedVarint (offset : Nat)
  /-- A tag whose low three bits name no framing. -/
  | unsupportedWireType (code offset : Nat)
  /-- A field framed otherwise than its kind is. -/
  | wireTypeMismatch (expected actual : WireType)
  /-- A tag whose field number is zero or too large. -/
  | invalidFieldNumber (number offset : Nat)
  /-- A payload that ends before its announced size. -/
  | truncated (offset needed remaining : Nat)
  /-- A string payload that is no UTF-8; the offset is that of its length. -/
  | invalidUtf8 (offset : Nat)
  /-- An embedded payload deeper than allowed; the offset is that of its length. -/
  | nestedTooDeep (offset : Nat)
  deriving DecidableEq, Repr

namespace DecodeError

/-- Where the fault is, for the faults that have a place. -/
def offset? : DecodeError → Option Nat
  | malformedVarint offset | unsupportedWireType _ offset | invalidFieldNumber _ offset
  | truncated offset _ _ | invalidUtf8 offset | nestedTooDeep offset => some offset
  | wireTypeMismatch _ _ => none

/-- The text shown to the user. -/
def message : DecodeError → String
  | malformedVarint offset => s!"malformed varint at offset {offset}"
  | unsupportedWireType code offset => s!"unsupported wire type {code} at offset {offset}"
  | wireTypeMismatch expected actual =>
    s!"wire type mismatch: got {actual.name}, expected {expected.name}"
  | invalidFieldNumber number offset => s!"invalid field number {number} at offset {offset}"
  | truncated offset needed remaining =>
    s!"truncated payload at offset {offset}: need {needed} bytes, have {remaining}"
  | invalidUtf8 offset => s!"invalid UTF-8 in string field at offset {offset}"
  | nestedTooDeep offset => s!"recursion limit reached at offset {offset}"

end DecodeError

/-- A buffer smaller than the message to be written into it. -/
structure EncodeError where
  /-- The size of the message. -/
  required : Nat
  /-- The room in the buffer. -/
  remaining : Nat
  deriving DecidableEq, Repr

/-- The text shown to the user. -/
def EncodeError.message (e : EncodeError) : String :=
  s!"buffer too small: need {e.required} bytes, {e.remaining} remaining"

end Protowire
