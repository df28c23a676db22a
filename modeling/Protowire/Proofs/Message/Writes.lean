import Protowire.Message.Encode
import Protowire.Proofs.Wire.Reads

/-!
# Proofs/Message/Writes — the fields a message is written as, and how many bytes they take

The pairs of a map may be written in any order, so a message has more than one encoding:
`Record.Writes r fields` says that `fields` is one of the ways to write `r`.  `Message.encode`
writes the pairs of each map by rising key (`Record.exists_writes_encode`).

Sizes are counted before anything is written, along cases of their own.  **They are the number of
bytes of every way to write a message** (`Record.length_of_writes`).
-/

namespace Protowire

/-- The fields of a packed list: one field for all values, and none for an empty list. -/
def WireField.pack (number : Nat) : List Payload → List WireField
  | [] => []
  | p :: ps => [⟨number, .delimited ((p :: ps).flatMap Payload.encode)⟩]

/-- The field of a map entry. -/
def Entry.toField {k v : Scalar} (number : Nat) (p : k.Value × v.Value) : WireField :=
  ⟨number, .delimited (Entry.body p.1 p.2)⟩

mutual

/-- The fields may be written for the record: those of its slots, in order. -/
def Record.Writes : {l : Layout} → Record l → List WireField → Prop
  | _, .nil, fields => fields = []
  | _, .cons c rest, fields =>
    ∃ first others, c.Writes first ∧ rest.Writes others ∧ fields = first ++ others

/-- The fields may be written for the slot; the pairs of a map stand in any order. -/
def Content.Writes : {slot : Slot} → Content slot → List WireField → Prop
  | .field _ number (.plain s), .plain v, fields =>
    fields = if v = s.zero then [] else [⟨number, s.toPayload v⟩]
  | .field _ _ (.optional _), .absent, fields => fields = []
  | .field _ number (.optional _), .present v, fields =>
    ∃ p, v.Writes p ∧ fields = [⟨number, p⟩]
  | .field _ number (.repeated _ packed), .repeated vs, fields =>
    ∃ ps, vs.Writes ps ∧
      fields = if packed then WireField.pack number ps else ps.map (WireField.mk number)
  | .field _ number (.map _ _), .map entries, fields =>
    ∃ pairs : List _, pairs.Perm entries.entries ∧
      fields = pairs.map (Entry.toField number)
  | .oneof _ _, .unset, fields => fields = []
  | .oneof _ _, .chosen m _ v, fields => ∃ p, v.Writes p ∧ fields = [⟨m.number, p⟩]

/-- The payload may be written for the value. -/
def Item.Writes : {e : Element} → Item e → Payload → Prop
  | .scalar s, .scalar v, p => p = s.toPayload v
  | .message _, .message r, p =>
    ∃ fields, r.Writes fields ∧ p = .delimited (WireField.encodeAll fields)

/-- The payloads may be written for the values, one for each. -/
def Items.Writes : {e : Element} → Items e → List Payload → Prop
  | _, .nil, ps => ps = []
  | _, .cons v rest, ps => ∃ p others, v.Writes p ∧ rest.Writes others ∧ ps = p :: others

end

/-- A value is written in the framing of its kind. -/
theorem Item.wireType_of_writes {e : Element} {v : Item e} {p : Payload} (h : v.Writes p) :
    p.wireType = e.wireType := by
  cases v with
  | scalar v =>
    rw [h]
    exact Scalar.wireType_toPayload _ v
  | message r =>
    obtain ⟨fields, -, rfl⟩ := h
    rfl

/-- The field of a value carries the tag of its kind. -/
theorem Item.encode_of_writes {e : Element} {v : Item e} {p : Payload} (h : v.Writes p)
    (number : Nat) :
    (WireField.mk number p).encode = Tag.encode number e.wireType ++ p.encode := by
  rw [WireField.encode, Item.wireType_of_writes h]

/-! ## Sizes -/

/-- **The size of a map entry is its length.** -/
theorem Entry.length_body {k v : Scalar} (key : k.Value) (value : v.Value) :
    (body key value).length = bodySize key value := by
  rw [body, List.length_append, Scalar.length_encodeField, Scalar.length_encodeField, bodySize]

/-- The length of payloads is the sum of their sizes. -/
theorem Payload.length_flatMap_encode (ps : List Payload) :
    (ps.flatMap encode).length = (ps.map size).sum := by
  rw [List.length_flatMap]
  exact congrArg List.sum (List.map_congr_left fun p _ => p.length_encode)

namespace WireField

/-- A packed list takes a tag, a length and its payloads. -/
theorem length_encodeAll_pack (number : Nat) {ps : List Payload} (h : ps ≠ []) :
    (encodeAll (pack number ps)).length = Tag.delimitedSize number (ps.map Payload.size).sum := by
  obtain ⟨p, ps, rfl⟩ := List.exists_cons_of_ne_nil h
  rw [pack, encodeAll_singleton, length_encode, size, Payload.size, Payload.length_flatMap_encode,
    Tag.delimitedSize]

/-- Entries take their sizes together, in any order. -/
theorem length_encodeAll_entries {k v : Scalar} (number : Nat)
    {pairs pairs' : List (k.Value × v.Value)} (h : pairs.Perm pairs') :
    (encodeAll (pairs.map (Entry.toField number))).length
      = pairs'.foldr (fun p n => Tag.delimitedSize number (Entry.bodySize p.1 p.2) + n) 0 := by
  have hsize : ∀ p : k.Value × v.Value,
      (Entry.toField number p).size = Tag.delimitedSize number (Entry.bodySize p.1 p.2) := by
    intro p
    rw [Entry.toField, size, Payload.size, Entry.length_body, Tag.delimitedSize]
  rw [length_encodeAll, List.map_map, (h.map _).sum_nat, List.sum, List.foldr_map]
  simp only [Function.comp, hsize]

end WireField

mutual

/-- **The size of a record is the length of all its fields**, however they are written. -/
theorem Record.length_of_writes : ∀ {l : Layout} {r : Record l} {fields : List WireField},
    r.Writes fields → (WireField.encodeAll fields).length = r.size
  | _, .nil, _, h => by
    rw [h]
    rfl
  | _, .cons c rest, _, h => by
    obtain ⟨first, others, hc, hrest, rfl⟩ := h
    rw [WireField.encodeAll_append, List.length_append, Content.length_of_writes hc,
      Record.length_of_writes hrest, Record.size]

/-- The size of a slot is the length of all its fields. -/
theorem Content.length_of_writes : ∀ {slot : Slot} {c : Content slot} {fields : List WireField},
    c.Writes fields → (WireField.encodeAll fields).length = c.size
  | .field _ number (.plain s), .plain v, _, h => by
    rw [h, Content.size]
    split
    · rfl
    · rw [WireField.encodeAll_singleton, WireField.length_encode]
      rfl
  | .field _ _ (.optional _), .absent, _, h => by
    rw [h]
    rfl
  | .field _ number (.optional _), .present v, _, h => by
    obtain ⟨p, hp, rfl⟩ := h
    rw [WireField.encodeAll_singleton, WireField.length_encode, WireField.size,
      Item.size_of_writes hp]
    rfl
  | .field _ number (.repeated _ packed), .repeated .nil, _, h => by
    obtain ⟨ps, rfl, rfl⟩ := h
    cases packed <;> rfl
  | .field _ number (.repeated _ packed), .repeated (.cons v rest), _, h => by
    obtain ⟨ps, hps, rfl⟩ := h
    cases packed with
    | false => exact Items.length_of_writes number hps
    | true =>
      -- The list has a value, so its one field is there.
      have hsum := Items.sum_of_writes hps
      obtain ⟨p, others, -, -, rfl⟩ := hps
      have hpack := WireField.length_encodeAll_pack number (List.cons_ne_nil p others)
      rw [hsum] at hpack
      exact hpack
  | .field _ number (.map _ _), .map entries, _, h => by
    obtain ⟨pairs, hperm, rfl⟩ := h
    exact WireField.length_encodeAll_entries number hperm
  | .oneof _ _, .unset, _, h => by
    rw [h]
    rfl
  | .oneof _ _, .chosen m _ v, _, h => by
    obtain ⟨p, hp, rfl⟩ := h
    rw [WireField.encodeAll_singleton, WireField.length_encode, WireField.size,
      Item.size_of_writes hp]
    rfl

/-- The size of a value is that of its payload. -/
theorem Item.size_of_writes : ∀ {e : Element} {v : Item e} {p : Payload},
    v.Writes p → p.size = v.payloadSize
  | _, .scalar v, _, h => by
    rw [h]
    rfl
  | _, .message r, _, h => by
    obtain ⟨fields, hr, rfl⟩ := h
    rw [Payload.size, Record.length_of_writes hr]
    rfl

/-- The size of a list of values is that of their payloads together. -/
theorem Items.sum_of_writes : ∀ {e : Element} {vs : Items e} {ps : List Payload},
    vs.Writes ps → (ps.map Payload.size).sum = vs.payloadSize
  | _, .nil, _, h => by
    rw [h]
    rfl
  | _, .cons v rest, _, h => by
    obtain ⟨p, others, hp, hrest, rfl⟩ := h
    rw [List.map_cons, List.sum_cons, Item.size_of_writes hp, Items.sum_of_writes hrest]
    rfl

/-- The size of a list that is not packed is the length of its fields. -/
theorem Items.length_of_writes (number : Nat) : ∀ {e : Element} {vs : Items e} {ps : List Payload},
    vs.Writes ps → (WireField.encodeAll (ps.map (WireField.mk number))).length = vs.size number
  | _, .nil, _, h => by
    rw [h]
    rfl
  | _, .cons v rest, _, h => by
    obtain ⟨p, others, hp, hrest, rfl⟩ := h
    have hothers := Items.length_of_writes number hrest
    rw [WireField.length_encodeAll] at hothers ⊢
    rw [List.map_cons, List.map_cons, List.sum_cons, hothers, WireField.size,
      Item.size_of_writes hp]
    rfl

end

/-! ## The fields that are written -/

/-- The bytes of an entry are those of one field with a delimited payload. -/
theorem WireField.encode_delimited (number : Nat) (body : Bytes) :
    (WireField.mk number (.delimited body)).encode = Tag.encodeDelimited number body.length body :=
  rfl

mutual

/-- **The encoding of a record is one of the ways to write it.** -/
theorem Record.exists_writes_encode : ∀ {l : Layout} (r : Record l),
    ∃ fields, r.Writes fields ∧ WireField.encodeAll fields = r.encode
  | _, .nil => ⟨[], rfl, rfl⟩
  | _, .cons c rest => by
    obtain ⟨first, hc, hfirst⟩ := Content.exists_writes_encode c
    obtain ⟨others, hrest, hothers⟩ := Record.exists_writes_encode rest
    refine ⟨first ++ others, ⟨first, others, hc, hrest, rfl⟩, ?_⟩
    rw [WireField.encodeAll_append, hfirst, hothers, Record.encode]

/-- The encoding of a slot is one of the ways to write it. -/
theorem Content.exists_writes_encode : ∀ {slot : Slot} (c : Content slot),
    ∃ fields, c.Writes fields ∧ WireField.encodeAll fields = c.encode
  | .field _ number (.plain s), .plain v => by
    refine ⟨_, rfl, ?_⟩
    rw [Content.encode]
    split
    · rfl
    · rw [WireField.encodeAll_singleton, WireField.encode, Scalar.wireType_toPayload,
        Scalar.encodeField]
  | .field _ _ (.optional _), .absent => ⟨[], rfl, rfl⟩
  | .field _ number (.optional _), .present v => by
    obtain ⟨p, hp, hpayload⟩ := Item.exists_writes_payload v
    refine ⟨_, ⟨p, hp, rfl⟩, ?_⟩
    rw [WireField.encodeAll_singleton, Item.encode_of_writes hp, hpayload]
    rfl
  | .field _ number (.repeated _ packed), .repeated vs => by
    obtain ⟨ps, hps, -, hfields, hpack⟩ := Items.exists_writes_encode number vs
    refine ⟨_, ⟨ps, hps, rfl⟩, ?_⟩
    cases packed with
    | false => exact hfields
    | true => exact hpack
  | .field _ number (.map _ _), .map entries => by
    refine ⟨_, ⟨entries.entries, .refl _, rfl⟩, ?_⟩
    rw [WireField.encodeAll, List.flatMap_map, Content.encode]
    simp only [Entry.toField, WireField.encode_delimited, Entry.length_body]
  | .oneof _ _, .unset => ⟨[], rfl, rfl⟩
  | .oneof _ _, .chosen m _ v => by
    obtain ⟨p, hp, hpayload⟩ := Item.exists_writes_payload v
    refine ⟨_, ⟨p, hp, rfl⟩, ?_⟩
    rw [WireField.encodeAll_singleton, Item.encode_of_writes hp, hpayload]
    rfl

/-- The payload of a value is one of the ways to write it. -/
theorem Item.exists_writes_payload : ∀ {e : Element} (v : Item e),
    ∃ p, v.Writes p ∧ p.encode = v.payload
  | _, .scalar v => ⟨_, rfl, rfl⟩
  | _, .message r => by
    obtain ⟨fields, hr, hfields⟩ := Record.exists_writes_encode r
    refine ⟨_, ⟨fields, hr, rfl⟩, ?_⟩
    rw [Payload.encode, Record.length_of_writes hr, hfields]
    rfl

/-- The bytes of a list are one of the ways to write it, packed or not. -/
theorem Items.exists_writes_encode (number : Nat) : ∀ {e : Element} (vs : Items e),
    ∃ ps, vs.Writes ps ∧ ps.flatMap Payload.encode = vs.payload ∧
      WireField.encodeAll (ps.map (WireField.mk number)) = vs.encode number ∧
      WireField.encodeAll (WireField.pack number ps) = vs.encodePacked number
  | _, .nil => ⟨[], rfl, rfl, rfl, rfl⟩
  | e, .cons v rest => by
    obtain ⟨p, hp, hpayload⟩ := Item.exists_writes_payload v
    obtain ⟨ps, hps, hrest, hfields, -⟩ := Items.exists_writes_encode number rest
    have hall : (p :: ps).flatMap Payload.encode = v.payload ++ rest.payload := by
      rw [List.flatMap_cons, hpayload, hrest]
    -- The length in front of a packed list is counted, not measured.
    have hlen : (v.payload ++ rest.payload).length = v.payloadSize + rest.payloadSize := by
      rw [← hall, Payload.length_flatMap_encode, List.map_cons, List.sum_cons,
        Item.size_of_writes hp, Items.sum_of_writes hps]
    refine ⟨p :: ps, ⟨p, ps, hp, hps, rfl⟩, hall, ?_, ?_⟩
    · have hfield : (WireField.mk number p).encode = Tag.encode number e.wireType ++ v.payload := by
        rw [Item.encode_of_writes hp, hpayload]
      exact congr (congrArg HAppend.hAppend hfield) hfields
    · rw [WireField.pack, WireField.encodeAll_singleton, WireField.encode_delimited, hall, hlen,
        Items.encodePacked]

end

/-! ## Sizes of encodings -/

/-- The size of a record is the length of its encoding. -/
theorem Record.length_encode {l : Layout} (r : Record l) : r.encode.length = r.size := by
  obtain ⟨fields, hfields, hencode⟩ := Record.exists_writes_encode r
  rw [← hencode, length_of_writes hfields]

/-- The size of a slot is the length of its encoding. -/
theorem Content.length_encode {slot : Slot} (c : Content slot) : c.encode.length = c.size := by
  obtain ⟨fields, hfields, hencode⟩ := Content.exists_writes_encode c
  rw [← hencode, length_of_writes hfields]

/-- The size of a field that holds one value is its length. -/
theorem Item.length_encode {e : Element} (v : Item e) (number : Nat) :
    (v.encode number).length = v.size number := by
  obtain ⟨p, hp, hpayload⟩ := Item.exists_writes_payload v
  rw [encode, ← hpayload, List.length_append, Tag.length_encode, Payload.length_encode,
    size_of_writes hp, size]

namespace Items

variable {e : Element} (vs : Items e) (number : Nat)

/-- The size of a list is its length, when each value has a tag of its own. -/
theorem length_encode : (vs.encode number).length = vs.size number :=
  Content.length_encode (.repeated vs : Content (.field "" number (.repeated e false)))

/-- The size of a packed list is its length. -/
theorem length_encodePacked : (vs.encodePacked number).length = vs.packedSize number :=
  Content.length_encode (.repeated vs : Content (.field "" number (.repeated e true)))

end Items

namespace Message

variable {t : MessageType} (m : Message t)

/-- The size of a message is the length of its encoding. -/
theorem length_encode : m.encode.length = m.size := Record.length_encode m

/-- **The size of a message is the number of bytes it is written in**, whatever the order of its
map pairs; so a buffer is refused exactly when the encoding does not fit, with its length, and holds
the encoding otherwise. -/
theorem size_eq_length_written :
    (∀ fields, m.Writes fields → (WireField.encodeAll fields).length = m.size) ∧
    m.encode.length = m.size ∧
    ∀ capacity,
      (capacity < m.encode.length ↔ m.encodeInto capacity = .error ⟨m.encode.length, capacity⟩) ∧
      (m.encode.length ≤ capacity ↔ m.encodeInto capacity = .ok m.encode) := by
  refine ⟨fun fields h => Record.length_of_writes h, m.length_encode, fun capacity => ?_⟩
  rw [encodeInto, m.length_encode]
  by_cases h : capacity < m.size
  · rw [if_pos h]
    exact ⟨⟨fun _ => rfl, fun _ => h⟩, ⟨fun hle => absurd h (Nat.not_lt.2 hle), nofun⟩⟩
  · rw [if_neg h]
    exact ⟨⟨fun hlt => absurd hlt h, nofun⟩, ⟨fun _ => rfl, fun _ => Nat.not_lt.1 h⟩⟩

end Message

end Protowire
