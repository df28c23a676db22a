import Protowire.Message.KeyMap
import Protowire.Message.Layout

/-!
# Message/Record — the values of messages

A `Record l` holds one `Content` for every slot of the layout `l`, and a `Message t` is a record
over the layout of its type.  The index says what may stand where: a value of the wrong kind, a
second value of a singular field or two members of one oneof **cannot be written down**.

Lists of values are `Items`; `Items.toList` and `Items.ofList` go to ordinary lists and back.
-/

namespace Protowire

mutual

/-- One content for every slot of a layout. -/
inductive Record : Layout → Type where
  | nil : Record []
  | cons {slot : Slot} {l : Layout} (c : Content slot) (rest : Record l) : Record (slot :: l)

/-- What stands in a slot. -/
inductive Content : Slot → Type where
  | plain {name : String} {number : Nat} {s : Scalar} (v : s.Value) :
      Content (.field name number (.plain s))
  | absent {name : String} {number : Nat} {e : Element} :
      Content (.field name number (.optional e))
  | present {name : String} {number : Nat} {e : Element} (v : Item e) :
      Content (.field name number (.optional e))
  | repeated {name : String} {number : Nat} {e : Element} {packed : Bool} (vs : Items e) :
      Content (.field name number (.repeated e packed))
  | map {name : String} {number : Nat} {k v : Scalar} (entries : KeyMap k v.Value) :
      Content (.field name number (.map k v))
  | unset {name : String} {members : List Member} : Content (.oneof name members)
  | chosen {name : String} {members : List Member} (m : Member) (mem : m ∈ members)
      (v : Item m.element) : Content (.oneof name members)

/-- One value of a field. -/
inductive Item : Element → Type where
  | scalar {s : Scalar} (v : s.Value) : Item (.scalar s)
  | message {t : MessageType} (r : Record t.layout) : Item (.message t)

/-- A list of values of a field. -/
inductive Items : Element → Type where
  | nil {e : Element} : Items e
  | cons {e : Element} (v : Item e) (rest : Items e) : Items e

end

/-- A message of the given type. -/
abbrev Message (t : MessageType) := Record t.layout

namespace Items

variable {e : Element}

/-- The values in order. -/
def toList : Items e → List (Item e)
  | nil => []
  | cons v rest => v :: rest.toList

/-- The values of a list. -/
def ofList : List (Item e) → Items e
  | [] => nil
  | v :: vs => cons v (ofList vs)

/-- The values with more values after them. -/
def append : Items e → Items e → Items e
  | nil, ws => ws
  | cons v rest, ws => cons v (rest.append ws)

@[simp] theorem toList_ofList (vs : List (Item e)) : (ofList vs).toList = vs := by
  induction vs with
  | nil => rfl
  | cons v vs ih => simp [ofList, toList, ih]

@[simp] theorem toList_append :
    ∀ vs ws : Items e, (vs.append ws).toList = vs.toList ++ ws.toList
  | nil, _ => rfl
  | cons v rest, ws => by simp [append, toList, toList_append rest ws]

end Items

/-- The value of a scalar item. -/
def Item.scalarValue {s : Scalar} : Item (.scalar s) → s.Value
  | .scalar v => v

/-- The record of a message item. -/
def Item.record {t : MessageType} : Item (.message t) → Message t
  | .message r => r

/-- A slot nothing was read for. -/
def Content.empty : (slot : Slot) → Content slot
  | .field _ _ (.plain s) => .plain s.zero
  | .field _ _ (.optional _) => .absent
  | .field _ _ (.repeated _ _) => .repeated .nil
  | .field _ _ (.map _ _) => .map .empty
  | .oneof _ _ => .unset

/-- A record nothing was read for. -/
def Record.empty : (l : Layout) → Record l
  | [] => .nil
  | slot :: l => .cons (Content.empty slot) (empty l)

/-- A message nothing was read for. -/
def Message.empty (t : MessageType) : Message t := Record.empty t.layout

/-- A value nothing was read for. -/
def Item.empty : (e : Element) → Item e
  | .scalar s => .scalar s.zero
  | .message t => .message (Message.empty t)

end Protowire
