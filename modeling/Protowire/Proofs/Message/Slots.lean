import Protowire.Proofs.Message.Layout
import Protowire.Proofs.Message.TakeUp

/-!
# Proofs/Message/Slots — a field goes to one slot of a record and leaves the others as they are

`Record.mergeField_cons` says where a field goes: to the first slot if that has its number, and else
to the slots behind it.  Either way taking up the field is taking it up in one slot
(`Content.mergeField`), with the rest of the record put around what comes of it.
-/

namespace Protowire

variable {below : Below} {number : Nat} {wireType : WireType}

/-- **What an optional field held plays no part** in what it holds next. -/
theorem Content.mergeField_optional {name : String} {number' : Nat} {e : Element}
    (c : Content (.field name number' (.optional e))) :
    c.mergeField below number wireType = Content.present <$> Item.merge below e wireType := by
  rw [mergeField, bind_pure_comp]

/-- What a plain field held plays no part in what it holds next. -/
theorem Content.mergeField_plain {name : String} {number' : Nat} {s : Scalar}
    (c : Content (.field name number' (.plain s))) :
    c.mergeField below number wireType = Content.plain <$> s.merge wireType := by
  rw [mergeField, bind_pure_comp]

namespace Record

variable {slot : Slot} {l : Layout}

/-- **A record takes up a field in the first slot that has its number.** -/
theorem mergeField_cons (c : Content slot) (rest : Record l) :
    (cons c rest).mergeField below number wireType
      = if slot.has number then (cons · rest) <$> c.mergeField below number wireType
        else cons c <$> rest.mergeField below number wireType := by
  rw [mergeField, bind_pure_comp, bind_pure_comp]

/-- **A field of no slot is skipped**, and the record is left as it is. -/
theorem mergeField_of_not_mem : ∀ {l : Layout} (r : Record l), number ∉ l.numbers →
    r.mergeField below number wireType = Reader.skip wireType >>= fun _ => pure r
  | _, .nil, _ => by rw [mergeField]
  | _, .cons c rest, h => by
    obtain ⟨hhas, hrest⟩ := Layout.of_not_mem_numbers_cons h
    rw [mergeField_cons, if_neg (Bool.eq_false_iff.1 hhas), mergeField_of_not_mem rest hrest,
      map_bind]
    rfl

/-- The slots of one record and then those of another. -/
def append : {front back : Layout} → Record front → Record back → Record (front ++ back)
  | _, _, .nil, y => y
  | _, _, .cons c x, y => .cons c (x.append y)

/-- **Slots without the number of a field are passed over.** -/
theorem mergeField_append : ∀ {front back : Layout} (x : Record front) (y : Record back),
    number ∉ front.numbers → (x.append y).mergeField below number wireType
      = x.append <$> y.mergeField below number wireType
  | _, _, .nil, y, _ => (id_map (y.mergeField below number wireType)).symm
  | _, _, .cons c x, y, h => by
    obtain ⟨hhas, hfront⟩ := Layout.of_not_mem_numbers_cons h
    have hcons : ((cons c x).append y).mergeField below number wireType = _ :=
      mergeField_cons c (x.append y)
    rw [hcons, if_neg (Bool.eq_false_iff.1 hhas), mergeField_append x y hfront, Functor.map_map]
    rfl

end Record

end Protowire
