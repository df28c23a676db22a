import Protowire.Wire.Tag

/-!
# Wire/Reader — a cursor over a window of the input, and the payloads it reads

A `Reader` is a window of the outermost input: where the window starts, how many of its bytes have
been read, and the bytes that are left.  Offsets in errors count from the start of the outermost
input, so a reader split off for an embedded payload keeps its place (`Reader.window`).

**A read that fails leaves the cursor where the failing step found it**: a length that was read
stays read when its payload is cut off, and so does the word of a bad tag.

A field that is not known is skipped by its wire type alone (`Reader.skip`), which keeps nothing of
what it reads.
-/

namespace Protowire

/-- A cursor over a window of the outermost input. -/
structure Reader where
  /-- Where the window starts in the outermost input. -/
  start : Nat
  /-- How many bytes of the window have been read. -/
  pos : Nat
  /-- The bytes that are left. -/
  rest : Bytes
  deriving DecidableEq, Repr

/-- A computation that reads bytes.  A failure keeps the cursor it was found at. -/
abbrev Decode := EStateM DecodeError Reader

/-- The payload of one field. -/
inductive Payload where
  | varint (word : UInt64)
  | fixed64 (word : UInt64)
  | fixed32 (word : UInt32)
  | delimited (bytes : Bytes)
  deriving DecidableEq, Repr

namespace Payload

/-- The framing a payload came in. -/
def wireType : Payload → WireType
  | varint _ => .varint
  | fixed64 _ => .fixed64
  | fixed32 _ => .fixed32
  | delimited _ => .lengthDelimited

/-- The bytes of a payload, with the length in front of a delimited one. -/
def encode : Payload → Bytes
  | varint word => Varint.encode word
  | fixed64 word => Bytes.ofNat 8 word.toNat
  | fixed32 word => Bytes.ofNat 4 word.toNat
  | delimited bytes => Varint.encode (UInt64.ofNat bytes.length) ++ bytes

/-- How many bytes a payload takes, counted without writing them. -/
def size : Payload → Nat
  | varint word => Varint.size word
  | fixed64 _ => 8
  | fixed32 _ => 4
  | delimited bytes => Varint.size (UInt64.ofNat bytes.length) + bytes.length

end Payload

namespace Reader

/-- A cursor at the start of the outermost input. -/
def ofBytes (bytes : Bytes) : Reader := ⟨0, 0, bytes⟩

/-- A cursor at the start of the window that holds `bytes` from `start` on. -/
def window (start : Nat) (bytes : Bytes) : Reader := ⟨start, 0, bytes⟩

/-- Where the cursor is in the outermost input. -/
def offset (r : Reader) : Nat := r.start + r.pos

/-- How many bytes are left. -/
def remaining (r : Reader) : Nat := r.rest.length

/-- Are no bytes left? -/
def isEmpty (r : Reader) : Bool := r.rest.isEmpty

/-- How many bytes the window holds, read or not. -/
def size (r : Reader) : Nat := r.pos + r.rest.length

/-- The cursor `n` bytes further on. -/
def advance (r : Reader) (n : Nat) : Reader :=
  { r with pos := r.pos + n, rest := r.rest.drop n }

/-- Reads one varint. -/
def varint : Decode UInt64 := fun r =>
  match Varint.decode r.rest with
  | some (word, length) => .ok word (r.advance length)
  | none => .error (.malformedVarint r.offset) r

/-- Reads exactly `n` bytes. -/
def take (n : Nat) : Decode Bytes := fun r =>
  if n ≤ r.remaining then .ok (r.rest.take n) (r.advance n)
  else .error (.truncated r.offset n r.remaining) r

/-- Reads a word of four bytes. -/
def fixed32 : Decode UInt32 :=
  return UInt32.ofNat (← take 4).toNat

/-- Reads a word of eight bytes. -/
def fixed64 : Decode UInt64 :=
  return UInt64.ofNat (← take 8).toNat

/-- Reads a length and then that many bytes. -/
def delimited : Decode Bytes := do
  take (← varint).toNat

/-- Reads a tag.  Its offset is that of its first byte. -/
def tag : Decode (Nat × WireType) := do
  let offset := (← get).offset
  let key ← varint
  match Tag.decode key offset with
  | .ok found => return found
  | .error e => throw e

/-- Reads a length and the payload it covers, as a reader over that payload. -/
def enter : Decode Reader := do
  let length ← varint
  let start := (← get).offset
  return window start (← take length.toNat)

/-- Reads the payload of a field that is not known, and drops it. -/
def skip : WireType → Decode Unit
  | .varint => do
    let _ ← varint
    return ()
  | .fixed64 => do
    let _ ← take 8
    return ()
  | .fixed32 => do
    let _ ← take 4
    return ()
  | .lengthDelimited => do
    let _ ← delimited
    return ()

/-- Repeats a step on a state until the window is used up.  `fuel` bounds the number of steps; the
number of bytes left is enough of it for steps that read at least one byte. -/
def repeatUpTo {σ : Type} (step : σ → Decode σ) : (fuel : Nat) → σ → Decode σ
  | 0, s => return s
  | fuel + 1, s => do
    if (← get).isEmpty then return s else repeatUpTo step fuel (← step s)

/-- Repeats a step on a state until the window is used up. -/
def untilEmpty {σ : Type} (step : σ → Decode σ) (s : σ) : Decode σ := do
  repeatUpTo step (← get).remaining s

/-- Runs a computation over a window of its own, whose cursor is given up afterwards. -/
def runWindow {α : Type} (x : Decode α) (r : Reader) : Except DecodeError α :=
  match x.run r with
  | .ok a _ => .ok a
  | .error e _ => .error e

end Reader

/-- Turns a finished result into a computation that reads nothing. -/
def Decode.ofExcept {α : Type} : Except DecodeError α → Decode α
  | .ok a => pure a
  | .error e => throw e

end Protowire
