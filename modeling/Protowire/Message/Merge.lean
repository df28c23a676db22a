import Protowire.Message.Budget
import Protowire.Message.Record

/-!
# Message/Merge — reading messages, one field at a time

A field whose tag has been read is taken up by the slot that has its number (`Record.mergeField`):
each shape of a slot checks the framing it expects and reads its payload in **its own way**.  A
field that belongs to no slot is skipped by its framing alone (`Reader.skip`).

A later field replaces an earlier one of the same singular slot, as a whole; lists grow and maps
take up pairs.  Reading goes on until the window is used up.

The nesting budget appears as the decoder for embedded messages: when it is spent there is none
(`Budget.below`).  Map entries take a level too, though their values are scalars.
-/

namespace Protowire

/-- The decoder for messages one level down, or `none` if no further level is allowed. -/
abbrev Below := Option ((t : MessageType) → Decode (Message t))

/-- Refuses an embedded payload if no further level is allowed. -/
def Below.check (below : Below) (offset : Nat) : Except DecodeError Unit :=
  if below.isSome then .ok () else .error (.nestedTooDeep offset)

/-- Reads values one after the other, without tags, until the window is used up. -/
def Scalar.readPacked (s : Scalar) : Decode (List s.Value) :=
  Reader.untilEmpty (fun vs => do return vs ++ [← s.read]) []

namespace Item

/-- Reads a field that holds one value.  A message is read afresh, one level down. -/
def merge (below : Below) : (e : Element) → WireType → Decode (Item e)
  | .scalar s, wireType => return .scalar (← s.merge wireType)
  | .message t, wireType => do
    Decode.ofExcept (WireType.lengthDelimited.check wireType)
    match below with
    | none => throw (.nestedTooDeep (← get).offset)
    | some decode =>
      let inner ← Reader.enter
      return .message (← Decode.ofExcept (Reader.runWindow (decode t) inner))

/-- Reads a field that adds to a list.  A list of numbers may also come packed. -/
def mergeMany (below : Below) : (e : Element) → WireType → Decode (List (Item e))
  | .scalar s, wireType =>
    if s.isPackable ∧ wireType = .lengthDelimited then do
      let inner ← Reader.enter
      return (← Decode.ofExcept (Reader.runWindow s.readPacked inner)).map .scalar
    else do
      return [← merge below (.scalar s) wireType]
  | .message t, wireType => return [← merge below (.message t) wireType]

end Item

/-- A map entry as far as it has been read. -/
structure Entry (k : Scalar) (e : Element) where
  key : k.Value
  value : Item e

namespace Entry

variable {k : Scalar} {e : Element}

/-- An entry nothing was read for. -/
def empty (k : Scalar) (e : Element) : Entry k e := ⟨k.zero, Item.empty e⟩

/-- Reads one field of an entry: the key, the value, or one that is dropped. -/
def mergeNext (below : Below) (entry : Entry k e) : Decode (Entry k e) := do
  let (number, wireType) ← Reader.tag
  if number = 1 then
    return { entry with key := ← k.merge wireType }
  else if number = 2 then
    return { entry with value := ← Item.merge below e wireType }
  else
    Reader.skip wireType
    return entry

/-- Reads a map entry, which takes a level of its own; `inner` is for its value. -/
def mergeWith (below inner : Below) (k : Scalar) (e : Element) (wireType : WireType) :
    Decode (Entry k e) := do
  Decode.ofExcept (WireType.lengthDelimited.check wireType)
  Decode.ofExcept (below.check (← get).offset)
  let payload ← Reader.enter
  Decode.ofExcept (Reader.runWindow (Reader.untilEmpty (mergeNext inner) (empty k e)) payload)

end Entry

/-- The member of a oneof with the given number. -/
def Member.find? (number : Nat) (members : List Member) : Option { m : Member // m ∈ members } :=
  members.attach.find? fun m => m.1.number == number

/-- Does a field of this number belong to the slot? -/
def Slot.has (slot : Slot) (number : Nat) : Bool := slot.numbers.contains number

/-- Takes up one field of a slot whose tag has been read. -/
def Content.mergeField (below : Below) (number : Nat) (wireType : WireType) :
    {slot : Slot} → Content slot → Decode (Content slot)
  | .field _ _ (.plain s), _ => return .plain (← s.merge wireType)
  | .field _ _ (.optional e), _ => return .present (← Item.merge below e wireType)
  | .field _ _ (.repeated e _), .repeated vs =>
    return .repeated (vs.append (Items.ofList (← Item.mergeMany below e wireType)))
  | .field _ _ (.map k v), .map entries => do
    let entry ← Entry.mergeWith below none k (.scalar v) wireType
    return .map (entries.insert entry.key entry.value.scalarValue)
  | .oneof _ members, c =>
    match Member.find? number members with
    | some ⟨m, mem⟩ => return .chosen m mem (← Item.merge below m.element wireType)
    | none => do
      Reader.skip wireType
      return c

namespace Record

/-- Takes up one field whose tag has been read: in the slot that has its number, or nowhere. -/
def mergeField (below : Below) (number : Nat) (wireType : WireType) :
    {l : Layout} → Record l → Decode (Record l)
  | _, .nil => do
    Reader.skip wireType
    return .nil
  | slot :: _, .cons c rest =>
    if slot.has number then return .cons (← c.mergeField below number wireType) rest
    else return .cons c (← rest.mergeField below number wireType)

variable {l : Layout}

/-- Takes up one field. -/
def mergeNext (below : Below) (r : Record l) : Decode (Record l) := do
  let (number, wireType) ← Reader.tag
  r.mergeField below number wireType

/-- Takes up fields until the window is used up. -/
def merge (below : Below) (r : Record l) : Decode (Record l) :=
  Reader.untilEmpty (mergeNext below) r

end Record

/-- The decoder for embedded messages when that many levels may be entered. -/
def Below.ofLevels : (levels : Nat) → Below
  | 0 => none
  | levels + 1 => some fun t => (Record.empty t.layout).merge (ofLevels levels)

/-- The decoder for embedded messages within a budget. -/
def Budget.below (budget : Budget) : Below := Below.ofLevels budget.levels

/-- Reads one map entry whose tag has been read. -/
def Entry.merge (budget : Budget) (k : Scalar) (e : Element) (wireType : WireType) :
    Decode (Entry k e) :=
  Entry.mergeWith budget.below budget.enter.below k e wireType

namespace Message

variable {t : MessageType}

/-- Takes up all fields in `bytes`, within a budget. -/
def mergeWithin (budget : Budget) (m : Message t) (bytes : Bytes) :
    Except DecodeError (Message t) :=
  Reader.runWindow (Record.merge budget.below m) (Reader.ofBytes bytes)

/-- Takes up all fields in `bytes`. -/
def merge (m : Message t) (bytes : Bytes) : Except DecodeError (Message t) :=
  mergeWithin .standard m bytes

/-- The message in `bytes`, within a budget. -/
def decodeWithin (budget : Budget) (t : MessageType) (bytes : Bytes) :
    Except DecodeError (Message t) :=
  mergeWithin budget (Message.empty t) bytes

/-- The message in `bytes`. -/
def decode (t : MessageType) (bytes : Bytes) : Except DecodeError (Message t) :=
  decodeWithin .standard t bytes

/-- Reads the message behind a length; what follows it is left. -/
def readDelimited (t : MessageType) : Decode (Message t) := do
  let inner ← Reader.enter
  Decode.ofExcept
    (Reader.runWindow (Record.merge Budget.standard.below (Message.empty t)) inner)

/-- The message behind a length; bytes after it are ignored. -/
def decodeDelimited (t : MessageType) (bytes : Bytes) : Except DecodeError (Message t) :=
  Reader.runWindow (readDelimited t) (Reader.ofBytes bytes)

end Message

end Protowire
