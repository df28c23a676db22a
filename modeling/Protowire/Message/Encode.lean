import Protowire.Message.Record

/-!
# Message/Encode — the bytes of a message, and how many they are

Slots are written in the order of the layout, each field as tag and payload.  The size of an
embedded message stands before its bytes, so sizes are **counted without writing anything**: every
`encode` has a `size` beside it that follows the same cases.

A plain field is left out when its value is zero, a packed list when it is empty.  Map entries
always hold both their key, as field 1, and their value, as field 2.
-/

namespace Protowire

namespace Entry

/-- The field number of the key of a map entry. -/
def keyNumber : Nat := 1

/-- The field number of the value of a map entry. -/
def valueNumber : Nat := 2

/-- The size of an entry between two scalars, without its tag and length. -/
def bodySize {k v : Scalar} (key : k.Value) (value : v.Value) : Nat :=
  k.fieldSize keyNumber key + v.fieldSize valueNumber value

/-- The bytes of an entry between two scalars, without its tag and length. -/
def body {k v : Scalar} (key : k.Value) (value : v.Value) : Bytes :=
  k.encodeField keyNumber key ++ v.encodeField valueNumber value

end Entry

mutual

/-- How many bytes the fields of a record take. -/
def Record.size : {l : Layout} → Record l → Nat
  | _, .nil => 0
  | _, .cons c rest => c.size + rest.size

/-- How many bytes the fields of a slot take. -/
def Content.size : {slot : Slot} → Content slot → Nat
  | .field _ number (.plain s), .plain v => if v = s.zero then 0 else s.fieldSize number v
  | .field _ _ (.optional _), .absent => 0
  | .field _ number (.optional _), .present v => Tag.size number + v.payloadSize
  | .field _ number (.repeated _ packed), .repeated vs =>
    if packed then vs.packedSize number else vs.size number
  | .field _ number (.map _ _), .map entries =>
    entries.entries.foldr
      (fun p total => Tag.delimitedSize number (Entry.bodySize p.1 p.2) + total) 0
  | .oneof _ _, .unset => 0
  | .oneof _ _, .chosen m _ v => Tag.size m.number + v.payloadSize

/-- How many bytes a value takes after its tag. -/
def Item.payloadSize : {e : Element} → Item e → Nat
  | .scalar s, .scalar v => (s.toPayload v).size
  | .message _, .message r => Varint.size (UInt64.ofNat r.size) + r.size

/-- How many bytes the values of a list take, each after a tag of its own. -/
def Items.size (number : Nat) : {e : Element} → Items e → Nat
  | _, .nil => 0
  | _, .cons v rest => (Tag.size number + v.payloadSize) + rest.size number

/-- How many bytes the values of a list take without tags. -/
def Items.payloadSize : {e : Element} → Items e → Nat
  | _, .nil => 0
  | _, .cons v rest => v.payloadSize + rest.payloadSize

/-- How many bytes a list takes as one packed field. -/
def Items.packedSize (number : Nat) : {e : Element} → Items e → Nat
  | _, .nil => 0
  | _, .cons v rest => Tag.delimitedSize number (v.payloadSize + rest.payloadSize)

end

mutual

/-- The bytes of a record: its slots in order. -/
def Record.encode : {l : Layout} → Record l → Bytes
  | _, .nil => []
  | _, .cons c rest => c.encode ++ rest.encode

/-- The bytes of a slot: all its fields. -/
def Content.encode : {slot : Slot} → Content slot → Bytes
  | .field _ number (.plain s), .plain v => if v = s.zero then [] else s.encodeField number v
  | .field _ _ (.optional _), .absent => []
  | .field _ number (.optional e), .present v => Tag.encode number e.wireType ++ v.payload
  | .field _ number (.repeated _ packed), .repeated vs =>
    if packed then vs.encodePacked number else vs.encode number
  | .field _ number (.map _ _), .map entries =>
    entries.entries.flatMap fun p =>
      Tag.encodeDelimited number (Entry.bodySize p.1 p.2) (Entry.body p.1 p.2)
  | .oneof _ _, .unset => []
  | .oneof _ _, .chosen m _ v => Tag.encode m.number m.element.wireType ++ v.payload

/-- The bytes of a value after its tag. -/
def Item.payload : {e : Element} → Item e → Bytes
  | .scalar s, .scalar v => (s.toPayload v).encode
  | .message _, .message r => Varint.encode (UInt64.ofNat r.size) ++ r.encode

/-- The bytes of a list: each value after a tag of its own. -/
def Items.encode (number : Nat) : {e : Element} → Items e → Bytes
  | _, .nil => []
  | e, .cons v rest => (Tag.encode number e.wireType ++ v.payload) ++ rest.encode number

/-- The bytes of the values of a list without tags. -/
def Items.payload : {e : Element} → Items e → Bytes
  | _, .nil => []
  | _, .cons v rest => v.payload ++ rest.payload

/-- The bytes of a list as one packed field; nothing for an empty list. -/
def Items.encodePacked (number : Nat) : {e : Element} → Items e → Bytes
  | _, .nil => []
  | _, .cons v rest =>
    Tag.encodeDelimited number (v.payloadSize + rest.payloadSize) (v.payload ++ rest.payload)

end

namespace Item

variable {e : Element}

/-- The bytes of a field that holds one value. -/
def encode (number : Nat) (v : Item e) : Bytes :=
  Tag.encode number e.wireType ++ v.payload

/-- How many bytes a field takes that holds one value. -/
def size (number : Nat) (v : Item e) : Nat :=
  Tag.size number + v.payloadSize

end Item

namespace Entry

variable {k : Scalar} {e : Element}

/-- The bytes of a map entry, as a field of the given number. -/
def encode (number : Nat) (key : k.Value) (value : Item e) : Bytes :=
  Tag.encodeDelimited number (k.fieldSize keyNumber key + value.size valueNumber)
    (k.encodeField keyNumber key ++ value.encode valueNumber)

/-- How many bytes a map entry takes as a field of the given number. -/
def size (number : Nat) (key : k.Value) (value : Item e) : Nat :=
  Tag.delimitedSize number (k.fieldSize keyNumber key + value.size valueNumber)

/-- The bytes of a list of map entries, in the order given. -/
def encodeAll (number : Nat) (entries : List (k.Value × Item e)) : Bytes :=
  entries.flatMap fun p => encode number p.1 p.2

/-- How many bytes a list of map entries takes. -/
def sizeAll (number : Nat) (entries : List (k.Value × Item e)) : Nat :=
  entries.foldr (fun p total => size number p.1 p.2 + total) 0

end Entry

namespace Message

variable {t : MessageType}

/-- The bytes of a message. -/
def encode (m : Message t) : Bytes := Record.encode m

/-- How many bytes a message takes. -/
def size (m : Message t) : Nat := Record.size m

/-- The bytes of a message with their number in front. -/
def encodeDelimited (m : Message t) : Bytes :=
  Varint.encode (UInt64.ofNat m.size) ++ m.encode

/-- The bytes of a message, for a buffer with room for `capacity` bytes.  A message that does not
fit is refused before anything is written. -/
def encodeInto (m : Message t) (capacity : Nat) : Except EncodeError Bytes :=
  if capacity < m.size then .error ⟨m.size, capacity⟩ else .ok m.encode

end Message

end Protowire
