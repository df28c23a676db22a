import Protowire.Schema.Basic
import Protowire.Schema.Error
import Protowire.Schema.Declaration

/-!
# Schema/MapField — fields that are maps

A map field is written as a repeated field whose message is marked as an entry.  The entry has two
singular fields, **the key with number 1 and the value with number 2**, and the key is of a kind
that has an exact order.
-/

namespace Protowire.Schema

/-- What an entry says a map maps from and to. -/
def Message.mapEntry (m : Message) (entry : MessageId) : Except EntryFault MapEntry :=
  if m.fields.length ≠ 2 then .error .fieldCount
  else
    match m.fields.find? (·.number == 1), m.fields.find? (·.number == 2) with
    | none, _ => .error .missingKey
    | some _, none => .error .missingValue
    | some key, some value =>
      if key.isRepeated || value.isRepeated then .error .repeatedPart
      else
        match key.type with
        | .scalar kind =>
          if kind.isMapKey then .ok ⟨entry, kind, value.type⟩ else .error .badKey
        | _ => .error .badKey

/-- A field of the message `owner`, as a map if its type is an entry among the messages. -/
def attachMap (messages : List Message) (owner : String) (f : Field) : Except SchemaError Field :=
  let refused (fault : EntryFault) : SchemaError := .badMapEntry (qualify owner f.name) fault
  match f.type with
  | .message target =>
    match messages[target]? with
    | some entry =>
      if !entry.isMapEntry then .ok f
      else if !f.isRepeated then .error (refused .notRepeated)
      else ((entry.mapEntry target).mapError refused).map fun map => { f with map := some map }
    | none => .ok f
  | _ => .ok f

/-- A message with its map fields as maps. -/
def attachMaps (messages : List Message) (m : Message) : Except SchemaError Message := do
  return { m with fields := ← m.fields.mapM (attachMap messages m.fullName) }

end Protowire.Schema
