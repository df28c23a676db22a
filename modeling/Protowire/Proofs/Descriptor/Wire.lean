import Protowire.Descriptor.Wire
import Protowire.Proofs.Schema.Declaration

/-!
# Proofs/Descriptor/Wire — a descriptor is read back from the message it travels as

Each component of a descriptor has a slot of its own, and what is put there is what is taken out: a
list, a value that may be absent, or a descriptor inside, which is read back by the same argument.
Messages hold messages, so they need an induction over all that is nested
(`MessageDescriptor.ofItems_toItems`).
-/

namespace Protowire

section Slots

variable {α : Type} {t : MessageType} {toMessage : α → Message t} {ofMessage : Message t → α}
  {name : String} {number : Nat}

@[simp] theorem Items.toStrings_ofStrings (texts : List String) :
    (ofStrings texts).toStrings = texts := by
  rw [toStrings, ofStrings, toList_ofList, List.map_map]
  exact List.map_id texts

/-- Descriptors that are read back one by one are read back from a list. -/
theorem Items.toMessages_ofMessages (h : ∀ a, ofMessage (toMessage a) = a) (as : List α) :
    (ofMessages toMessage as).toMessages ofMessage = as := by
  rw [toMessages, ofMessages, toList_ofList, List.map_map]
  exact (List.map_congr_left fun a _ => h a).trans (List.map_id as)

/-- A scalar that may be absent is read back. -/
theorem Content.map_scalarValue_ofOption {s : Scalar} (v : Option s.Value) :
    (ofOption (v.map .scalar) : Content (.field name number (.optional (.scalar s)))).toOption.map
      Item.scalarValue = v := by
  cases v <;> rfl

/-- A descriptor that may be absent is read back when it is read back where it is present. -/
theorem Content.map_record_ofOption (h : ∀ a, ofMessage (toMessage a) = a) (v : Option α) :
    ((ofOption (v.map fun a => .message (toMessage a)) :
      Content (.field name number (.optional (.message t)))).toOption.map fun v =>
        ofMessage v.record) = v := by
  cases v with
  | none => rfl
  | some a => exact congrArg some (h a)

end Slots

/-! ## Enums, fields and options -/

@[simp] theorem FieldOptions.ofMessage_toMessage (o : FieldOptions) : ofMessage o.toMessage = o :=
  congrArg mk (Content.map_scalarValue_ofOption (s := .bool) o.packed)

@[simp] theorem MessageOptions.ofMessage_toMessage (o : MessageOptions) :
    ofMessage o.toMessage = o :=
  congrArg mk (Content.map_scalarValue_ofOption (s := .bool) o.mapEntry)

@[simp] theorem FieldDescriptor.ofMessage_toMessage (f : FieldDescriptor) :
    ofMessage f.toMessage = f := by
  rw [toMessage, ofMessage, Content.map_record_ofOption FieldOptions.ofMessage_toMessage,
    Content.map_scalarValue_ofOption]

@[simp] theorem OneofDescriptor.ofMessage_toMessage (o : OneofDescriptor) :
    ofMessage o.toMessage = o := rfl

@[simp] theorem EnumValueDescriptor.ofMessage_toMessage (v : EnumValueDescriptor) :
    ofMessage v.toMessage = v := rfl

@[simp] theorem EnumDescriptor.ofMessage_toMessage (e : EnumDescriptor) :
    ofMessage e.toMessage = e := by
  rw [toMessage, ofMessage,
    Items.toMessages_ofMessages EnumValueDescriptor.ofMessage_toMessage]

/-! ## Messages -/

namespace MessageDescriptor

/-- A message is read back when what is declared inside it is. -/
theorem ofMessage_toMessage_of_messages (m : MessageDescriptor)
    (h : ofItems (toItems m.messages) = m.messages) : ofMessage m.toMessage = m := by
  obtain ⟨name, fields, messages, enums, options, oneofs⟩ := m
  rw [toMessage, ofMessage, Items.toMessages_ofMessages FieldDescriptor.ofMessage_toMessage, h,
    Items.toMessages_ofMessages EnumDescriptor.ofMessage_toMessage,
    Content.map_record_ofOption MessageOptions.ofMessage_toMessage,
    Items.toMessages_ofMessages OneofDescriptor.ofMessage_toMessage]

/-- **Messages are read back with all that is declared inside them.** -/
theorem ofItems_toItems (ms : List MessageDescriptor) : ofItems (toItems ms) = ms := by
  induction ms using forestInduction with
  | nil => rw [toItems, ofItems]
  | cons m ms hinner hrest =>
    rw [toItems, ofItems, ofMessage_toMessage_of_messages m hinner, hrest]

@[simp] theorem ofMessage_toMessage (m : MessageDescriptor) : ofMessage m.toMessage = m :=
  ofMessage_toMessage_of_messages m (ofItems_toItems m.messages)

end MessageDescriptor

/-! ## Files, file sets and exchanges -/

@[simp] theorem FileDescriptor.ofMessage_toMessage (f : FileDescriptor) :
    ofMessage f.toMessage = f := by
  rw [toMessage, ofMessage, Items.toStrings_ofStrings,
    Items.toMessages_ofMessages MessageDescriptor.ofMessage_toMessage,
    Items.toMessages_ofMessages EnumDescriptor.ofMessage_toMessage]

@[simp] theorem FileDescriptorSet.ofMessage_toMessage (s : FileDescriptorSet) :
    ofMessage s.toMessage = s :=
  congrArg mk (Items.toMessages_ofMessages FileDescriptor.ofMessage_toMessage s.files)

@[simp] theorem Version.ofMessage_toMessage (v : Version) : ofMessage v.toMessage = v := rfl

@[simp] theorem GeneratorRequest.ofMessage_toMessage (r : GeneratorRequest) :
    ofMessage r.toMessage = r := by
  rw [toMessage, ofMessage, Items.toStrings_ofStrings,
    Content.map_record_ofOption Version.ofMessage_toMessage,
    Items.toMessages_ofMessages FileDescriptor.ofMessage_toMessage]

@[simp] theorem ResponseFile.ofMessage_toMessage (f : ResponseFile) :
    ofMessage f.toMessage = f := rfl

@[simp] theorem GeneratorResponse.ofMessage_toMessage (r : GeneratorResponse) :
    ofMessage r.toMessage = r := by
  rw [toMessage, ofMessage, Content.map_scalarValue_ofOption,
    Items.toMessages_ofMessages ResponseFile.ofMessage_toMessage]

end Protowire
