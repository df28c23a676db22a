import Protowire.Proofs.Message.RoundTrip

/-!
# Proofs/Message/Nesting — where embedded messages and map entries stand in an encoding

`Message.nestings` lists every embedded message and every map entry of an encoding, in the order of
the bytes, with its depth and with the offset of the length in front of it.  The depth of a message
is that of its deepest nesting (`Record.depth_le_of_mem_nestings`), so a nesting of some depth is
missing from all that is less deep (`Nesting.first?_eq_none`).
-/

namespace Protowire

/-- An embedded message or a map entry in an encoding. -/
structure Nesting where
  /-- How many levels down it is; what a field of the message itself holds is one down. -/
  depth : Nat
  /-- Where the length in front of it starts. -/
  offset : Nat
  deriving DecidableEq, Repr

namespace Nesting

/-- The same nesting, when so many bytes come in front. -/
def after (bytes : Nat) (n : Nesting) : Nesting := { n with offset := n.offset + bytes }

/-- The same nesting inside a message with a lead of so many bytes. -/
def inside (lead : Nat) (n : Nesting) : Nesting := ⟨n.depth + 1, n.offset + lead⟩

/-- The first of the nestings that are so many levels down. -/
def first? (depth : Nat) (ns : List Nesting) : Option Nesting := ns.find? (·.depth == depth)

end Nesting

/-- The nestings of a map: its entries, one level down. -/
def Entry.nestings {k v : Scalar} (number : Nat) : List (k.Value × v.Value) → List Nesting
  | [] => []
  | p :: ps =>
    ⟨1, (Tag.encode number .lengthDelimited).length⟩ ::
      (nestings number ps).map (.after (Entry.toField number p).encode.length)

mutual

/-- The nestings of a record, with offsets from its start. -/
def Record.nestings : {l : Layout} → Record l → List Nesting
  | _, .nil => []
  | _, .cons c rest => c.nestings ++ rest.nestings.map (.after c.encode.length)

/-- The nestings of a slot, with offsets from its first field; a packed list has none. -/
def Content.nestings : {slot : Slot} → Content slot → List Nesting
  | .field _ _ (.plain _), .plain _ => []
  | .field _ _ (.optional _), .absent => []
  | .field _ number (.optional e), .present v =>
    v.nestings.map (.after (Tag.encode number e.wireType).length)
  | .field _ number (.repeated _ packed), .repeated vs => if packed then [] else vs.nestings number
  | .field _ number (.map _ _), .map entries => Entry.nestings number entries.entries
  | .oneof _ _, .unset => []
  | .oneof _ _, .chosen m _ v =>
    v.nestings.map (.after (Tag.encode m.number m.element.wireType).length)

/-- The nestings of a value, with offsets from its payload: an embedded message stands at its
length, and what it embeds behind that. -/
def Item.nestings : {e : Element} → Item e → List Nesting
  | .scalar _, .scalar _ => []
  | .message _, .message r =>
    ⟨1, 0⟩ :: r.nestings.map (.inside (Varint.encode (UInt64.ofNat r.size)).length)

/-- The nestings of values, each in a field of its own, with offsets from the first field. -/
def Items.nestings (number : Nat) : {e : Element} → Items e → List Nesting
  | _, .nil => []
  | e, .cons v rest =>
    v.nestings.map (.after (Tag.encode number e.wireType).length) ++
      (rest.nestings number).map
        (.after ((Tag.encode number e.wireType).length + v.payload.length))

end

/-- The nestings of a message in its encoding, in the order of the bytes. -/
def Message.nestings {t : MessageType} (m : Message t) : List Nesting := Record.nestings m

/-! ## Depths -/

namespace Nesting

variable {depth : Nat} {ns ns' : List Nesting} {n : Nesting}

theorem first?_append :
    first? depth (ns ++ ns') = (first? depth ns).or (first? depth ns') := List.find?_append

/-- Bytes in front do not change which nesting is the first of a depth. -/
theorem first?_map_after (bytes : Nat) :
    first? depth (ns.map (after bytes)) = (first? depth ns).map (after bytes) := List.find?_map

/-- The first nesting of a depth is the first inside that is one level less deep. -/
theorem first?_map_inside (lead : Nat) :
    first? (depth + 1) (ns.map (inside lead)) = (first? depth ns).map (inside lead) := by
  have hbeq : (fun n : Nesting => n.depth == depth + 1) ∘ inside lead
      = fun n : Nesting => n.depth == depth := by
    funext n
    exact Bool.eq_iff_iff.2 (by simp [inside])
  rw [first?, List.find?_map, hbeq, first?]

/-- What is less deep has no nesting of the depth. -/
theorem first?_eq_none (h : ∀ n ∈ ns, n.depth < depth) : first? depth ns = none := by
  refine List.find?_eq_none.2 fun n hn hbeq => ?_
  exact Nat.lt_irrefl depth (eq_of_beq hbeq ▸ h n hn)

end Nesting

/-- Entries are one level down. -/
theorem Entry.depth_of_mem_nestings {k v : Scalar} {number : Nat} {n : Nesting} :
    ∀ {ps : List (k.Value × v.Value)}, n ∈ nestings number ps → n.depth = 1 ∧ ps ≠ []
  | [], h => absurd h List.not_mem_nil
  | p :: ps, h => by
    refine ⟨?_, List.cons_ne_nil p ps⟩
    rcases List.mem_cons.1 h with rfl | h
    · rfl
    · obtain ⟨n', hn', rfl⟩ := List.mem_map.1 h
      exact (depth_of_mem_nestings hn').1

/-- Bytes in front do not make a nesting deeper. -/
theorem Nesting.depth_le_of_mem_map_after {ns : List Nesting} {bytes depth : Nat}
    (h : ∀ n ∈ ns, n.depth ≤ depth) : ∀ n ∈ ns.map (after bytes), n.depth ≤ depth := by
  intro n hn
  obtain ⟨n', hn', rfl⟩ := List.mem_map.1 hn
  exact h n' hn'

mutual

/-- **No nesting is deeper than the record.** -/
theorem Record.depth_le_of_mem_nestings : ∀ {l : Layout} (r : Record l),
    ∀ n ∈ r.nestings, n.depth ≤ r.depth
  | _, .nil => fun n hn => absurd hn List.not_mem_nil
  | _, .cons c rest => fun n hn => by
    rcases List.mem_append.1 hn with hn | hn
    · exact Nat.le_trans (Content.depth_le_of_mem_nestings c n hn) (Nat.le_max_left _ _)
    · exact Nat.le_trans (Nesting.depth_le_of_mem_map_after
        (Record.depth_le_of_mem_nestings rest) n hn) (Nat.le_max_right _ _)

/-- No nesting of a slot is deeper than the slot. -/
theorem Content.depth_le_of_mem_nestings : ∀ {slot : Slot} (c : Content slot),
    ∀ n ∈ c.nestings, n.depth ≤ c.depth
  | .field _ _ (.plain _), .plain _ => fun n hn => absurd hn List.not_mem_nil
  | .field _ _ (.optional _), .absent => fun n hn => absurd hn List.not_mem_nil
  | .field _ _ (.optional _), .present v =>
    Nesting.depth_le_of_mem_map_after (Item.depth_le_of_mem_nestings v)
  | .field _ number (.repeated _ packed), .repeated vs => fun n hn => by
    cases packed with
    | true => exact absurd hn List.not_mem_nil
    | false => exact Items.depth_le_of_mem_nestings number vs n hn
  | .field _ _ (.map _ _), .map entries => fun n hn => by
    obtain ⟨hdepth, hne⟩ := Entry.depth_of_mem_nestings hn
    refine Nat.le_of_eq ?_
    rw [hdepth, Content.depth, if_neg (fun hempty => hne (List.isEmpty_iff.1 hempty))]
  | .oneof _ _, .unset => fun n hn => absurd hn List.not_mem_nil
  | .oneof _ _, .chosen _ _ v =>
    Nesting.depth_le_of_mem_map_after (Item.depth_le_of_mem_nestings v)

/-- No nesting of a value is deeper than the value. -/
theorem Item.depth_le_of_mem_nestings : ∀ {e : Element} (v : Item e),
    ∀ n ∈ v.nestings, n.depth ≤ v.depth
  | _, .scalar _ => fun n hn => absurd hn List.not_mem_nil
  | _, .message r => fun n hn => by
    rcases List.mem_cons.1 hn with rfl | hn
    · exact Nat.succ_le_succ (Nat.zero_le r.depth)
    · obtain ⟨n', hn', rfl⟩ := List.mem_map.1 hn
      exact Nat.succ_le_succ (Record.depth_le_of_mem_nestings r n' hn')

/-- No nesting of a list is deeper than its deepest value. -/
theorem Items.depth_le_of_mem_nestings (number : Nat) : ∀ {e : Element} (vs : Items e),
    ∀ n ∈ vs.nestings number, n.depth ≤ vs.depth
  | _, .nil => fun n hn => absurd hn List.not_mem_nil
  | _, .cons v rest => fun n hn => by
    rcases List.mem_append.1 hn with hn | hn
    · exact Nat.le_trans (Nesting.depth_le_of_mem_map_after
        (Item.depth_le_of_mem_nestings v) n hn) (Nat.le_max_left _ _)
    · exact Nat.le_trans (Nesting.depth_le_of_mem_map_after
        (Items.depth_le_of_mem_nestings number rest) n hn) (Nat.le_max_right _ _)

end

/-! ## Places -/

/-- A length and the bytes it counts stand where the nesting says. -/
def Nesting.StandsIn (n : Nesting) (bytes : Bytes) : Prop :=
  ∃ front body back, bytes = front ++ ((Payload.delimited body).encode ++ back) ∧
    front.length = n.offset

namespace Nesting.StandsIn

variable {n : Nesting} {bytes : Bytes}

theorem append_right (h : n.StandsIn bytes) (back : Bytes) : n.StandsIn (bytes ++ back) := by
  obtain ⟨front, body, rest, rfl, hlen⟩ := h
  refine ⟨front, body, rest ++ back, ?_, hlen⟩
  simp only [List.append_assoc]

/-- With bytes in front, what the nesting becomes after them stands there. -/
theorem append_left (h : n.StandsIn bytes) {front : Bytes} {n' : Nesting}
    (hoffset : n'.offset = n.offset + front.length) : n'.StandsIn (front ++ bytes) := by
  obtain ⟨front', body, rest, rfl, hlen⟩ := h
  refine ⟨front ++ front', body, rest, (List.append_assoc _ _ _).symm, ?_⟩
  rw [List.length_append, hlen, hoffset, Nat.add_comm]

/-- Nestings that stand in bytes stand behind others, moved along. -/
theorem of_mem_map_after {ns : List Nesting} (h : ∀ n ∈ ns, n.StandsIn bytes) {front : Bytes} :
    ∀ n ∈ ns.map (after front.length), n.StandsIn (front ++ bytes) := by
  intro n hn
  obtain ⟨n', hn', rfl⟩ := List.mem_map.1 hn
  exact (h n' hn').append_left rfl

end Nesting.StandsIn

/-- The entries of a map stand where their nestings say. -/
theorem Entry.standsIn {k v : Scalar} (number : Nat) : ∀ (ps : List (k.Value × v.Value)),
    ∀ n ∈ nestings number ps, n.StandsIn (WireField.encodeAll (ps.map (toField number)))
  | [], n, hn => absurd hn List.not_mem_nil
  | p :: ps, n, hn => by
    rw [List.map_cons, ← List.singleton_append, WireField.encodeAll_append,
      WireField.encodeAll_singleton]
    rcases List.mem_cons.1 hn with rfl | hn
    · refine Nesting.StandsIn.append_right ?_ _
      exact ⟨Tag.encode number .lengthDelimited, body p.1 p.2, [], by rw [List.append_nil]; rfl,
        rfl⟩
    · exact Nesting.StandsIn.of_mem_map_after (standsIn number ps) n hn

/-- A map is written as the fields of its entries. -/
theorem Content.encode_map {name : String} {number : Nat} {k v : Scalar}
    (entries : KeyMap k v.Value) :
    (map entries : Content (.field name number (.map k v))).encode
      = WireField.encodeAll (entries.entries.map (Entry.toField number)) := by
  rw [WireField.encodeAll, List.flatMap_map, encode]
  simp only [Entry.toField, WireField.encode_delimited, Entry.length_body]

/-- The length of an embedded message is written in front of it. -/
theorem Item.payload_message {t : MessageType} (r : Message t) :
    (Item.message r).payload = (Payload.delimited (Record.encode r)).encode := by
  obtain ⟨fields, hr, hfields⟩ := Record.exists_writes_encode r
  rw [Item.payload, Payload.encode, ← hfields, Record.length_of_writes hr]

mutual

/-- **Every nesting of a record stands where it says**, in the encoding of the record. -/
theorem Record.standsIn_encode : ∀ {l : Layout} (r : Record l),
    ∀ n ∈ r.nestings, n.StandsIn r.encode
  | _, .nil => fun n hn => absurd hn List.not_mem_nil
  | _, .cons c rest => fun n hn => by
    rw [Record.encode]
    rcases List.mem_append.1 hn with hn | hn
    · exact (Content.standsIn_encode c n hn).append_right _
    · exact Nesting.StandsIn.of_mem_map_after (Record.standsIn_encode rest) n hn

/-- Every nesting of a slot stands where it says, in the encoding of the slot. -/
theorem Content.standsIn_encode : ∀ {slot : Slot} (c : Content slot),
    ∀ n ∈ c.nestings, n.StandsIn c.encode
  | .field _ _ (.plain _), .plain _ => fun n hn => absurd hn List.not_mem_nil
  | .field _ _ (.optional _), .absent => fun n hn => absurd hn List.not_mem_nil
  | .field _ _ (.optional _), .present v =>
    Nesting.StandsIn.of_mem_map_after (Item.standsIn_payload v)
  | .field _ number (.repeated _ packed), .repeated vs => fun n hn => by
    cases packed with
    | true => exact absurd hn List.not_mem_nil
    | false => exact Items.standsIn_encode number vs n hn
  | .field _ number (.map _ _), .map entries => fun n hn => by
    rw [Content.encode_map]
    exact Entry.standsIn number entries.entries n hn
  | .oneof _ _, .unset => fun n hn => absurd hn List.not_mem_nil
  | .oneof _ _, .chosen _ _ v =>
    Nesting.StandsIn.of_mem_map_after (Item.standsIn_payload v)

/-- Every nesting of a value stands where it says, in the payload of the value. -/
theorem Item.standsIn_payload : ∀ {e : Element} (v : Item e),
    ∀ n ∈ v.nestings, n.StandsIn v.payload
  | _, .scalar _ => fun n hn => absurd hn List.not_mem_nil
  | _, .message r => fun n hn => by
    rcases List.mem_cons.1 hn with rfl | hn
    · rw [Item.payload_message]
      exact ⟨[], r.encode, [], (List.append_nil _).symm, rfl⟩
    · obtain ⟨n', hn', rfl⟩ := List.mem_map.1 hn
      rw [Item.payload]
      exact (Record.standsIn_encode r n' hn').append_left rfl

/-- Every nesting of a list stands where it says, in the fields of the list. -/
theorem Items.standsIn_encode (number : Nat) : ∀ {e : Element} (vs : Items e),
    ∀ n ∈ vs.nestings number, n.StandsIn (vs.encode number)
  | _, .nil => fun n hn => absurd hn List.not_mem_nil
  | e, .cons v rest => fun n hn => by
    rw [Items.encode]
    rcases List.mem_append.1 hn with hn | hn
    · exact (Nesting.StandsIn.of_mem_map_after (Item.standsIn_payload v) n hn).append_right _
    · rw [← List.length_append] at hn
      exact Nesting.StandsIn.of_mem_map_after (Items.standsIn_encode number rest) n hn

end

end Protowire
