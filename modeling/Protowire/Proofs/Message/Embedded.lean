import Protowire.Proofs.Message.Slots
import Protowire.Proofs.Wire.Reads

/-!
# Proofs/Message/Embedded — an embedded message is decoded as if it stood alone

Where a length and then a payload stand, the payload is decoded as it would be alone, with one level
less to enter: a message comes out as that message, a fault as the same fault with its place counted
from the outermost input.  Either way the cursor ends behind the payload, whatever follows it
(`Reader.inPlace`), and what the slot held before is gone (`Content.mergeField_optional`).
-/

namespace Protowire

open Reader Decode

/-! ## What a payload comes to where it stands -/

/-- What a payload comes to at the given place when it comes to `x` alone: the same value, or the
same fault with its offset moved along.  The cursor is behind the payload either way. -/
def Reader.inPlace {α : Type} (place : Nat) (behind : Reader) :
    Except DecodeError α → EStateM.Result DecodeError Reader α
  | .ok a => .ok a behind
  | .error e => .error (e.shift place) behind

section InPlace

variable {α β : Type} {place : Nat} {behind r : Reader}

/-- A finished result whose fault has been moved along. -/
theorem Reader.run_ofExcept_mapError (x : Except DecodeError α) :
    (ofExcept (x.mapError (·.shift place))).run behind = inPlace place behind x := by
  cases x <;> rfl

/-- What is made of the value may be made of it alone. -/
theorem Reader.run_map_inPlace {x : Decode α} {a : Except DecodeError α}
    (h : x.run r = inPlace place behind a) (g : α → β) :
    (g <$> x).run r = inPlace place behind (g <$> a) := by
  rw [map_eq_pure_bind, EStateM.run_bind, h]
  cases a <;> rfl

end InPlace

/-! ## Embedded messages -/

section

variable {t : MessageType} {budget : Budget} {v p tail : Bytes} {length : UInt64} {r : Reader}

/-- With a level left there is a decoder for embedded messages, with one level less. -/
theorem Budget.below_eq_some (h : 1 ≤ budget.levels) : budget.below
    = some fun t : MessageType => (Record.empty t.layout).merge budget.enter.below := by
  obtain ⟨_ | levels⟩ := budget
  · exact absurd h (Nat.not_succ_le_zero 0)
  · rfl

/-- **The payload of an embedded message stands for what it stands for alone**, one level down, with
a fault moved along to where it is. -/
theorem Element.read_message (h : 1 ≤ budget.levels) (offset place : Nat) :
    (message t).read budget.below ⟨offset, place, .delimited p⟩
      = (Item.message <$> Message.decodeWithin budget.enter t p).mapError (·.shift place) := by
  -- The window over the payload has the bytes an input of its own has, `place` bytes further on.
  have hmoved : (ofBytes p).IsShift place (window place p) := ⟨rfl, (Nat.zero_add place).symm⟩
  have halone : runWindow ((Record.empty t.layout).merge budget.enter.below) (window place p)
      = (Message.decodeWithin budget.enter t p).mapError (·.shift place) :=
    (Record.merge_shifts (budget.enter.below_shifts place) _).runWindow hmoved
  rw [Budget.below_eq_some h, mapError_map, ← halone]
  rfl

/-- Reads an embedded message where it stands. -/
theorem Item.run_merge_message (hv : Varint.decode v = some (length, v.length))
    (hlength : length.toNat = p.length) (hrest : r.rest = v ++ p ++ tail)
    (hlevels : 1 ≤ budget.levels) :
    (Item.merge budget.below (.message t) .lengthDelimited).run r
      = inPlace (r.offset + v.length) ⟨r.start, r.pos + (v.length + p.length), tail⟩
          (Item.message <$> Message.decodeWithin budget.enter t p) := by
  obtain ⟨start, pos, rest⟩ := r
  obtain rfl : rest = v ++ p ++ tail := hrest
  have haccept : (Element.message t).accept budget.below .lengthDelimited (start + pos)
      = .ok () := by
    rw [Budget.below_eq_some hlevels]
    rfl
  have hoccurrence := delimited_readsAt_of_length (n := start + pos)
    (varint_readsAt_of_decode hv) hlength start pos tail rfl
  rw [List.length_append] at hoccurrence
  rw [Item.merge_eq, run_takeUp_of_occurrence haccept hoccurrence, Element.read_message hlevels,
    run_ofExcept_mapError]
  rfl

/-- A list of messages grows by the message that is read. -/
theorem Item.mergeMany_message (below : Below) (wireType : WireType) :
    Item.mergeMany below (.message t) wireType
      = (fun v => [v]) <$> Item.merge below (.message t) wireType := by
  rw [mergeMany, bind_pure_comp]

/-- Takes up an embedded message in the slot of a record that it belongs to. -/
theorem Record.run_mergeField_message {front back : Layout} {name : String} {number : Nat}
    (x : Record front) (c : Content (.field name number (.optional (.message t))))
    (y : Record back) (hnumber : number ∉ front.numbers) {place : Nat} {behind : Reader}
    (h : (Item.merge budget.below (.message t) .lengthDelimited).run r
      = inPlace place behind (Item.message <$> Message.decodeWithin budget.enter t p)) :
    ((x.append (.cons c y)).mergeField budget.below number .lengthDelimited).run r
      = inPlace place behind ((fun m => x.append (.cons (.present (.message m)) y)) <$>
          Message.decodeWithin budget.enter t p) := by
  have hhas : (Slot.field name number (.optional (.message t))).has number = true :=
    List.contains_iff_mem.2 (List.mem_singleton_self number)
  rw [mergeField_append x _ hnumber, mergeField_cons, if_pos hhas, Content.mergeField_optional]
  have hslot := run_map_inPlace h fun v =>
    x.append (cons (Content.present v : Content (.field name number (.optional (.message t)))) y)
  simp only [Functor.map_map] at hslot ⊢
  exact hslot

/-- **An embedded message is decoded as if it stood alone.**  Where the bytes left are a length, in
any form, as many bytes, and a tail, and a level may be entered, these bytes come to what they come
to alone with one level less: the same message, with the cursor in front of the tail, or the same
fault with its offset counted from where the payload starts.  A list grows by that message, and an
optional field of any record holds it, whatever it held before. -/
theorem Message.embedded_as_alone (hv : Varint.decode v = some (length, v.length))
    (hlength : length.toNat = p.length) (hrest : r.rest = v ++ p ++ tail)
    (hlevels : 1 ≤ budget.levels) :
    (Item.merge budget.below (.message t) .lengthDelimited).run r
      = inPlace (r.offset + v.length) ⟨r.start, r.pos + (v.length + p.length), tail⟩
          (Item.message <$> Message.decodeWithin budget.enter t p) ∧
    (Item.mergeMany budget.below (.message t) .lengthDelimited).run r
      = inPlace (r.offset + v.length) ⟨r.start, r.pos + (v.length + p.length), tail⟩
          ((fun m => [Item.message m]) <$> Message.decodeWithin budget.enter t p) ∧
    ∀ {front back : Layout} {name : String} {number : Nat} (x : Record front)
      (c : Content (.field name number (.optional (.message t)))) (y : Record back),
      number ∉ front.numbers →
        ((x.append (.cons c y)).mergeField budget.below number .lengthDelimited).run r
          = inPlace (r.offset + v.length) ⟨r.start, r.pos + (v.length + p.length), tail⟩
              ((fun m => x.append (.cons (.present (.message m)) y)) <$>
                Message.decodeWithin budget.enter t p) := by
  have hmerge := Item.run_merge_message hv hlength hrest hlevels (t := t)
  refine ⟨hmerge, ?_, fun x c y hnumber => Record.run_mergeField_message x c y hnumber hmerge⟩
  have hmany := run_map_inPlace hmerge fun v => [v]
  rw [← Item.mergeMany_message, Functor.map_map] at hmany
  exact hmany

end

/-- A length of two bytes where one would do: the message is read and the byte behind it is not,
and what the field held is gone; a fault inside is found as far into the outermost input as the
payload is. -/
theorem Message.embedded_as_alone_behind_long_length :
    (Item.merge (Budget.below ⟨1⟩) (.message .nestedInner) .lengthDelimited).run
        ⟨5, 2, [131, 0, 10, 1, 120, 255]⟩
      = .ok (.message (.cons (.plain "x") .nil)) ⟨5, 7, [255]⟩ ∧
    (Item.merge (Budget.below ⟨1⟩) (.message .nestedInner) .lengthDelimited).run
        ⟨5, 2, [131, 0, 10, 9, 120, 255]⟩
      = .error (.truncated 11 9 1) ⟨5, 7, [255]⟩ ∧
    (Record.mergeField (Budget.below ⟨1⟩) 1 .lengthDelimited
        (.cons (.present (.message (.cons (.plain "old") .nil))) .nil :
          Message .nestedMessage)).run ⟨5, 2, [131, 0, 10, 1, 120, 255]⟩
      = .ok (.cons (.present (.message (.cons (.plain "x") .nil))) .nil) ⟨5, 7, [255]⟩ := by
  have hlong : Varint.decode [131, 0] = some (3, [131, 0].length) := rfl
  have hlevels : 1 ≤ (Budget.mk 1).levels := Nat.le_refl 1
  have hx : (Reader.mk 5 2 [131, 0, 10, 1, 120, 255]).rest = [131, 0] ++ [10, 1, 120] ++ [255] :=
    rfl
  have hcut : (Reader.mk 5 2 [131, 0, 10, 9, 120, 255]).rest = [131, 0] ++ [10, 9, 120] ++ [255] :=
    rfl
  exact ⟨(Message.embedded_as_alone hlong (by decide) hx hlevels).1,
    (Message.embedded_as_alone hlong (by decide) hcut hlevels).1,
    (Message.embedded_as_alone hlong (by decide) hx hlevels).2.2 .nil _ .nil (by decide)⟩

end Protowire
