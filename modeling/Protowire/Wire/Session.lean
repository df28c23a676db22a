import Protowire.Wire.Reader

/-!
# Wire/Session — a stack of windows, read step by step

A session opens with one reader over the whole input.  Each step acts on the window on top:
`enter` splits off the payload of a delimited field as a new top, and `leave` drops the top unless
it is the only one.  A step that fails leaves the session usable, at the cursor the failure left.
-/

namespace Protowire

/-- What to read next. -/
inductive Step where
  | varint
  | tag
  | take (n : Nat)
  | fixed32
  | fixed64
  | delimited
  | enter
  | skip (wireType : WireType)
  | leave
  deriving DecidableEq, Repr

/-- What a step that succeeded has read. -/
inductive Reading where
  | word32 (word : UInt32)
  | word64 (word : UInt64)
  | tag (number : Nat) (wireType : WireType)
  | bytes (bytes : Bytes)
  | nothing
  deriving DecidableEq, Repr

/-- A stack of windows, never empty. -/
structure Session where
  /-- The window that is read. -/
  top : Reader
  /-- The windows it was split off from, innermost first. -/
  below : List Reader
  deriving DecidableEq, Repr

namespace Session

/-- A session over the whole input. -/
def ofBytes (bytes : Bytes) : Session := ⟨Reader.ofBytes bytes, []⟩

/-- Reads from the window on top. -/
def readTop (s : Session) (x : Decode Reading) : Except DecodeError Reading × Session :=
  match x.run s.top with
  | .ok reading top => (.ok reading, { s with top })
  | .error e top => (.error e, { s with top })

/-- Splits off the payload of a delimited field. -/
def enter (s : Session) : Except DecodeError Reading × Session :=
  match Reader.enter.run s.top with
  | .ok inner top => (.ok .nothing, ⟨inner, top :: s.below⟩)
  | .error e top => (.error e, { s with top })

/-- Drops the window on top, unless it is the only one. -/
def leave (s : Session) : Session :=
  match s.below with
  | [] => s
  | top :: below => ⟨top, below⟩

/-- Takes one step. -/
def step (s : Session) : Step → Except DecodeError Reading × Session
  | .varint => s.readTop (Reading.word64 <$> Reader.varint)
  | .tag => s.readTop ((fun (number, wireType) => Reading.tag number wireType) <$> Reader.tag)
  | .take n => s.readTop (Reading.bytes <$> Reader.take n)
  | .fixed32 => s.readTop (Reading.word32 <$> Reader.fixed32)
  | .fixed64 => s.readTop (Reading.word64 <$> Reader.fixed64)
  | .delimited => s.readTop (Reading.bytes <$> Reader.delimited)
  | .enter => s.enter
  | .skip wireType => s.readTop ((fun _ => Reading.nothing) <$> Reader.skip wireType)
  | .leave => (.ok .nothing, s.leave)

end Session

end Protowire
