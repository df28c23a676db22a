import Protowire.Proofs.Message.Slots
import Protowire.Proofs.Message.UnknownFields

/-!
# Proofs/Message/FieldOrder — fields of different slots may come in any order

A record takes up fields slot by slot: each slot takes up the fields that belong to it, in their
order, and what comes between them plays no part (`Record.foldlM_takeField_cons`).  So fields may be
moved past one another as long as each slot finds its own in the order they had; and two fields next
to each other may be exchanged unless they are one field's or of one oneof.
-/

namespace Protowire

open Reader

/-- The fields that belong to a slot, in their order. -/
def Slot.fieldsIn (slot : Slot) (fields : List RawField) : List RawField :=
  fields.filter fun f => slot.has f.number

/-- The fields that do not belong to a slot, in their order. -/
def Slot.fieldsOutside (slot : Slot) (fields : List RawField) : List RawField :=
  fields.filter fun f => !slot.has f.number

/-- What belongs to one slot of the fields that do not belong to another. -/
theorem Slot.fieldsIn_fieldsOutside (slot slot' : Slot) (fields : List RawField) :
    slot.fieldsIn (slot'.fieldsOutside fields) = slot'.fieldsOutside (slot.fieldsIn fields) := by
  rw [fieldsIn, fieldsOutside, fieldsIn, fieldsOutside, List.filter_filter, List.filter_filter]
  exact List.filter_congr fun f _ => Bool.and_comm (slot.has f.number) (!slot'.has f.number)

/-- A slot with two numbers that differ is a oneof with members of both. -/
theorem Slot.not_has_both {slot : Slot} {a b : Nat} (hne : a ≠ b)
    (honeof : ∀ name members, slot = .oneof name members →
      ¬ (a ∈ members.map (·.number) ∧ b ∈ members.map (·.number))) :
    ¬ (slot.has a = true ∧ slot.has b = true) := by
  simp only [has, List.contains_iff_mem]
  cases slot with
  | field name number shape =>
    rintro ⟨ha, hb⟩
    exact hne ((List.mem_singleton.1 ha).trans (List.mem_singleton.1 hb).symm)
  | oneof name members => exact honeof name members rfl

/-- A slot that does not have both of two fields next to each other finds them in either order. -/
theorem Slot.fieldsIn_swap {slot : Slot} {f g : RawField}
    (h : ¬ (slot.has f.number = true ∧ slot.has g.number = true)) (before after : List RawField) :
    slot.fieldsIn (before ++ g :: f :: after) = slot.fieldsIn (before ++ f :: g :: after) := by
  simp only [fieldsIn, List.filter_append, List.filter_cons]
  cases hf : slot.has f.number with
  | false => rfl
  | true =>
    cases hg : slot.has g.number with
    | false => rfl
    | true => exact absurd ⟨hf, hg⟩ h

/-! ## One field -/

/-- Takes up one field of a slot, with no other bytes in sight. -/
def Content.takeField (below : Below) {slot : Slot} (c : Content slot) (f : RawField) :
    Except DecodeError (Content slot) :=
  runWindow (c.mergeField below f.number f.wireType) (ofBytes f.payload)

namespace Record

variable {below : Below} {slot : Slot} {l : Layout} {f : RawField} {fields fields' : List RawField}

/-- Takes up one field, with no other bytes in sight.  The same for any layout as
`Message.takeField` for the layouts of messages: here the slots are taken off one by one. -/
def takeField (below : Below) (r : Record l) (f : RawField) : Except DecodeError (Record l) :=
  runWindow (r.mergeField below f.number f.wireType) (ofBytes f.payload)

/-- A record without slots passes over every complete field. -/
theorem takeField_nil (hf : f.IsComplete) : takeField below nil f = .ok nil := by
  obtain ⟨o, r', ho⟩ := hf.exists_occurrence
  exact (runWindow_mergeField_eq_ok ho).2 ⟨rfl, rfl⟩

/-- A record takes up a field in the first slot that has its number. -/
theorem takeField_cons (c : Content slot) (rest : Record l) (f : RawField) :
    takeField below (cons c rest) f
      = if slot.has f.number then (cons · rest) <$> c.takeField below f
        else cons c <$> takeField below rest f := by
  rw [takeField, mergeField_cons]
  split <;> rw [map_eq_pure_bind] <;> exact runWindow_map _ _ _

/-! ## All fields -/

/-- **A record takes up fields slot by slot**: the first slot takes up those that belong to it, and
the slots behind it take up the others. -/
theorem foldlM_takeField_cons {c c' : Content slot} {rest rest' : Record l} :
    fields.foldlM (takeField below) (cons c rest) = .ok (cons c' rest') ↔
      (slot.fieldsIn fields).foldlM (Content.takeField below) c = .ok c' ∧
        (slot.fieldsOutside fields).foldlM (takeField below) rest = .ok rest' := by
  -- A field changes the first slot or the slots behind it, so both are kept general.
  induction fields generalizing c rest with
  | nil =>
    constructor
    · intro h
      obtain ⟨rfl, rfl⟩ := cons.inj (Except.ok.inj h)
      exact ⟨rfl, rfl⟩
    · rintro ⟨hc, hrest⟩
      obtain rfl : c = c' := Except.ok.inj hc
      obtain rfl : rest = rest' := Except.ok.inj hrest
      rfl
  | cons f fields ih =>
    rw [List.foldlM_cons, takeField_cons]
    cases hhas : slot.has f.number with
    | true =>
      have hin : slot.fieldsIn (f :: fields) = f :: slot.fieldsIn fields :=
        List.filter_cons_of_pos hhas
      have hout : slot.fieldsOutside (f :: fields) = slot.fieldsOutside fields :=
        List.filter_cons_of_neg (by rw [hhas]; decide)
      rw [if_pos rfl, hin, hout, List.foldlM_cons]
      cases c.takeField below f with
      | error e => exact ⟨nofun, fun h => absurd h.1 nofun⟩
      | ok c₁ => exact ih
    | false =>
      have hin : slot.fieldsIn (f :: fields) = slot.fieldsIn fields :=
        List.filter_cons_of_neg (by rw [hhas]; decide)
      have hout : slot.fieldsOutside (f :: fields) = f :: slot.fieldsOutside fields :=
        List.filter_cons_of_pos (by rw [hhas]; rfl)
      rw [if_neg Bool.false_ne_true, hin, hout, List.foldlM_cons]
      cases takeField below rest f with
      | error e => exact ⟨nofun, fun h => absurd h.2 nofun⟩
      | ok rest₁ => exact ih

/-- A record without slots passes over all complete fields. -/
theorem foldlM_takeField_nil (h : ∀ f ∈ fields, f.IsComplete) :
    fields.foldlM (takeField below) nil = .ok nil := by
  induction fields with
  | nil => rfl
  | cons f fields ih =>
    rw [List.foldlM_cons, takeField_nil (h f List.mem_cons_self)]
    exact ih fun g hg => h g (List.mem_cons_of_mem f hg)

/-- **Two lists of fields come to the same when each slot finds the same fields in them**, in the
same order. -/
theorem foldlM_takeField_congr : ∀ {l : Layout} {fields fields' : List RawField} (r r' : Record l),
    (∀ f ∈ fields, f.IsComplete) → (∀ f ∈ fields', f.IsComplete) →
    (∀ slot ∈ l, slot.fieldsIn fields' = slot.fieldsIn fields) →
      (fields'.foldlM (takeField below) r = .ok r' ↔ fields.foldlM (takeField below) r = .ok r')
  | _, _, _, .nil, .nil, hf, hf', _ => by
    rw [foldlM_takeField_nil hf, foldlM_takeField_nil hf']
  | slot :: _, fields, fields', .cons c rest, .cons c' rest', hf, hf', hslots => by
    rw [foldlM_takeField_cons, foldlM_takeField_cons, hslots slot List.mem_cons_self]
    -- The slots behind find in what the first one leaves what they found in all fields.
    refine and_congr_right fun _ => foldlM_takeField_congr rest rest'
      (fun f h => hf f (List.mem_filter.1 h).1) (fun f h => hf' f (List.mem_filter.1 h).1) ?_
    intro slot' hslot'
    rw [Slot.fieldsIn_fieldsOutside, Slot.fieldsIn_fieldsOutside,
      hslots slot' (List.mem_cons_of_mem slot hslot')]

end Record

/-! ## Inputs -/

namespace Message

variable {t : MessageType} {budget : Budget} {m m' : Message t} {fields fields' : List RawField}

/-- An input that is complete fields is taken up as the fields are. -/
theorem mergeWithin_eq_ok_iff_of_split {bytes : Bytes} (h : RawField.split bytes = .ok fields) :
    m.mergeWithin budget bytes = .ok m' ↔
      fields.foldlM (Record.takeField budget.below) m = .ok m' := by
  rw [mergeWithin_eq_ok_iff]
  constructor
  · rintro ⟨fields', h', -, hfold⟩
    obtain rfl : fields = fields' := Except.ok.inj (h.symm.trans h')
    exact hfold
  · exact fun hfold => ⟨fields, h, (RawField.split_eq_ok_iff.1 h).2, hfold⟩

/-- **Fields may be reordered as long as each slot finds its own in the order they had.** -/
theorem mergeWithin_reorder_iff {bytes : Bytes} (h : RawField.split bytes = .ok fields)
    (hperm : fields'.Perm fields)
    (hslots : ∀ slot ∈ t.layout, slot.fieldsIn fields' = slot.fieldsIn fields) :
    m.mergeWithin budget (fields'.flatMap RawField.bytes) = .ok m' ↔
      m.mergeWithin budget bytes = .ok m' := by
  have hf : ∀ f ∈ fields, f.IsComplete := (RawField.split_eq_ok_iff.1 h).1
  have hf' : ∀ f ∈ fields', f.IsComplete := fun f hmem => hf f (hperm.mem_iff.1 hmem)
  rw [mergeWithin_eq_ok_iff_of_split h,
    mergeWithin_eq_ok_iff_of_split (RawField.split_eq_ok_iff.2 ⟨hf', rfl⟩)]
  exact Record.foldlM_takeField_congr m m' hf hf' hslots

/-- **Fields of different slots may come in any order.**  Of an input that is complete fields, two
fields next to each other may be exchanged if their numbers differ and do not belong to the same
oneof; and all of them may be reordered in any way that leaves the fields of each field and of each
oneof in the order they had.  Either way a message takes up the input exactly when it did before,
and becomes what it became. -/
theorem field_order_between_slots :
    (∀ {bytes : Bytes} {before after : List RawField} {f g : RawField},
      RawField.split bytes = .ok (before ++ f :: g :: after) → f.number ≠ g.number →
      (∀ name members, Slot.oneof name members ∈ t.layout →
        ¬ (f.number ∈ members.map (·.number) ∧ g.number ∈ members.map (·.number))) →
      (m.mergeWithin budget ((before ++ g :: f :: after).flatMap RawField.bytes) = .ok m' ↔
        m.mergeWithin budget bytes = .ok m')) ∧
    ∀ {bytes : Bytes} {fields fields' : List RawField},
      RawField.split bytes = .ok fields → fields'.Perm fields →
      (∀ slot ∈ t.layout, slot.fieldsIn fields' = slot.fieldsIn fields) →
      (m.mergeWithin budget (fields'.flatMap RawField.bytes) = .ok m' ↔
        m.mergeWithin budget bytes = .ok m') := by
  refine ⟨fun {bytes before after f g} hsplit hne honeof => ?_, mergeWithin_reorder_iff⟩
  refine mergeWithin_reorder_iff hsplit ((List.Perm.swap f g after).append_left before) ?_
  intro slot hslot
  exact Slot.fieldsIn_swap (Slot.not_has_both hne fun name members heq =>
    honeof name members (heq ▸ hslot)) before after

/-- Both members of a oneof and a message: the message may stand in front of the last member, and in
front of both. -/
theorem field_order_of_choice_and_child :
    ∃ m' : Message .foo,
      (Message.empty .foo).mergeWithin .standard [146, 1, 1, 97, 152, 1, 5, 138, 1, 2, 8, 7]
        = .ok m' ∧
      (Message.empty .foo).mergeWithin .standard [146, 1, 1, 97, 138, 1, 2, 8, 7, 152, 1, 5]
        = .ok m' ∧
      (Message.empty .foo).mergeWithin .standard [138, 1, 2, 8, 7, 146, 1, 1, 97, 152, 1, 5]
        = .ok m' ∧
      m'.encode = [138, 1, 2, 8, 7, 152, 1, 5] := by
  have hsplit : RawField.split [146, 1, 1, 97, 152, 1, 5, 138, 1, 2, 8, 7]
      = .ok ([⟨18, .lengthDelimited, [146, 1], [1, 97]⟩] ++
        ⟨19, .varint, [152, 1], [5]⟩ :: ⟨17, .lengthDelimited, [138, 1], [2, 8, 7]⟩ :: []) := rfl
  have hperm : ([⟨17, .lengthDelimited, [138, 1], [2, 8, 7]⟩,
      ⟨18, .lengthDelimited, [146, 1], [1, 97]⟩, ⟨19, .varint, [152, 1], [5]⟩] :
        List RawField).Perm
      ([⟨18, .lengthDelimited, [146, 1], [1, 97]⟩] ++
        ⟨19, .varint, [152, 1], [5]⟩ :: ⟨17, .lengthDelimited, [138, 1], [2, 8, 7]⟩ :: []) := by
    decide
  have honeof : ∀ name members, Slot.oneof name members ∈ MessageType.foo.layout →
      ¬ (19 ∈ members.map (·.number) ∧ 17 ∈ members.map (·.number)) := by
    simp
  exact ⟨_, rfl, (field_order_between_slots.1 hsplit (by decide) honeof).2 rfl,
    (field_order_between_slots.2 hsplit hperm (by decide)).2 rfl, rfl⟩

end Message

end Protowire
