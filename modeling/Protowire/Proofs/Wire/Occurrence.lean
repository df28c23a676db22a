import Protowire.Wire.Reader

/-!
# Proofs/Wire/Occurrence — one payload, read by its framing alone

`Reader.occurrence` reads a payload of any framing and says what it was and where: the common part
of skipping a field, which drops it (`Reader.skip_eq`), and of decoding one, which makes something
of it.  It is a device of the proofs: no reader goes through it.
-/

namespace Protowire

/-- A payload that was found in the input, and where. -/
structure Occurrence where
  /-- Where the field starts behind its tag; for a delimited payload, where its length starts. -/
  offset : Nat
  /-- Where the bytes of a delimited payload start. -/
  body : Nat
  /-- What was read. -/
  payload : Payload
  deriving DecidableEq, Repr

/-- The window over a delimited payload. -/
def Occurrence.window (o : Occurrence) (bytes : Bytes) : Reader := Reader.window o.body bytes

namespace Reader

/-- A look at the cursor that nothing depends on may be left out. -/
theorem get_bind_const {α : Type} (x : Decode α) : (get >>= fun _ : Reader => x) = x := rfl

/-- Reads the payload of one field, framed as given. -/
def occurrence (wireType : WireType) : Decode Occurrence := do
  let offset := (← get).offset
  match wireType with
  | .varint => return ⟨offset, offset, .varint (← varint)⟩
  | .fixed64 => return ⟨offset, offset, .fixed64 (← fixed64)⟩
  | .fixed32 => return ⟨offset, offset, .fixed32 (← fixed32)⟩
  | .lengthDelimited =>
    let inner ← enter
    return ⟨offset, inner.start, .delimited inner.rest⟩

/-- **Skipping a field is reading its payload and dropping it.** -/
theorem skip_eq (wireType : WireType) :
    skip wireType = occurrence wireType >>= fun _ => pure () := by
  cases wireType with
  | varint | fixed64 | fixed32 =>
    simp only [skip, occurrence, fixed64, fixed32, bind_assoc, pure_bind, get_bind_const]
  | lengthDelimited =>
    simp only [skip, occurrence, delimited, enter, bind_assoc, pure_bind, get_bind_const]

end Reader

end Protowire
