import Protowire.Proofs.Message.Lists
import Protowire.Proofs.Message.Slots

/-!
# Proofs/Message/InPlace — every kind of field is read back where it stands

Whatever stands in front of a field and behind it: its tag says its number and the framing of its
kind, the payload behind the tag is read as the value that was written, and the cursor ends behind
the last byte that was written (`Decode.ReadsField`).  What the field held before plays no part.
-/

namespace Protowire

open Reader Decode

/-- **Behind a tag of this number and framing, reads the value**, and all bytes up to the tail,
wherever they stand. -/
def Decode.ReadsField {α : Type} (number : Nat) (wireType : WireType) (x : Decode α) (bytes : Bytes)
    (a : α) : Prop :=
  ∀ start pos tail, ∃ r, tag.run ⟨start, pos, bytes ++ tail⟩ = .ok (number, wireType) r ∧
    x.run r = .ok a ⟨start, pos + bytes.length, tail⟩

variable {number : Nat}

/-- A tag and then a payload that is read. -/
theorem Decode.Reads.field {α : Type} {x : Decode α} {p : Bytes} {a : α} (h : Reads x p a)
    (hpos : 1 ≤ number) (hmax : number ≤ FieldNumber.max) (wireType : WireType) :
    ReadsField number wireType x (Tag.encode number wireType ++ p) a := by
  intro start pos tail
  rw [List.append_assoc, List.length_append, ← Nat.add_assoc]
  exact ⟨_, tag_readsAt hpos hmax wireType start pos (p ++ tail) rfl, h _ start _ tail rfl⟩

/-- What is made of the value may be made of it behind the tag. -/
theorem Decode.ReadsField.map {α β : Type} {wireType : WireType} {x : Decode α} {bytes : Bytes}
    {a : α} (h : ReadsField number wireType x bytes a) (g : α → β) :
    ReadsField number wireType (g <$> x) bytes (g a) := by
  intro start pos tail
  obtain ⟨r, htag, hrun⟩ := h start pos tail
  refine ⟨r, htag, ?_⟩
  rw [map_eq_pure_bind, run_bind_of_ok hrun]
  rfl

/-- A record takes up a field of its first slot as the slot does. -/
theorem Record.readsField_cons {wireType : WireType} {below : Below} {bytes : Bytes} {name : String}
    {shape : Shape} {l : Layout} {old new : Content (.field name number shape)}
    (h : ReadsField number wireType (old.mergeField below number wireType) bytes new)
    (rest : Record l) :
    ReadsField number wireType ((cons old rest).mergeField below number wireType) bytes
      (cons new rest) := by
  have hhas : (Slot.field name number shape).has number = true :=
    List.contains_iff_mem.2 (List.mem_singleton_self number)
  rw [mergeField_cons, if_pos hhas]
  exact h.map (cons · rest)

/-- **A value is read back behind the tag of its field.** -/
theorem Item.encode_readsField {e : Element} {v : Item e} {below : Below} {levels : Nat}
    (h : below.Restores levels) (hpos : 1 ≤ number) (hmax : number ≤ FieldNumber.max)
    (hfits : v.Fits) (hdepth : v.depth ≤ levels) :
    ReadsField number e.wireType (Item.merge below e e.wireType) (v.encode number) v := by
  obtain ⟨p, hw, hpayload⟩ := Item.exists_writes_payload v
  have hreads := Item.merge_reads h hw hdepth (hfits.of_writes hw)
  rw [Item.wireType_of_writes hw, hpayload] at hreads
  exact hreads.field hpos hmax e.wireType

/-- **A scalar is read back behind the tag of its field.** -/
theorem Scalar.encodeField_readsField (s : Scalar) {v : s.Value} (hpos : 1 ≤ number)
    (hmax : number ≤ FieldNumber.max) (hfits : (s.toPayload v).Fits) :
    ReadsField number s.wireType (s.merge s.wireType) (s.encodeField number v) v :=
  (s.merge_reads hfits).field hpos hmax s.wireType

/-- **Every kind of field is read back in place.**  Under every number that a tag can carry, a
value — a scalar, or a message nested no deeper than the budget — is written in as many bytes as are
counted, and where these bytes stand a tag of that number and of the framing of its kind is read,
then the value, and the tail is left.  An optional field of a record comes to hold that value, and a
plain one that scalar, whatever it held.  A list that is written one value at a time is read back
behind the values that are there. -/
theorem Message.every_field_read_in_place (hpos : 1 ≤ number) (hmax : number ≤ FieldNumber.max)
    (budget : Budget) :
    (∀ {e : Element} {v : Item e}, v.Fits → v.depth ≤ budget.levels →
      (v.encode number).length = v.size number ∧
      ReadsField number e.wireType (Item.merge budget.below e e.wireType) (v.encode number) v ∧
      ∀ {name : String} {l : Layout} (old : Content (.field name number (.optional e)))
        (rest : Record l),
        ReadsField number e.wireType
          ((Record.cons old rest).mergeField budget.below number e.wireType) (v.encode number)
          (.cons (.present v) rest)) ∧
    (∀ {s : Scalar} {v : s.Value}, (s.toPayload v).Fits →
      (s.encodeField number v).length = s.fieldSize number v ∧
      ReadsField number s.wireType (s.merge s.wireType) (s.encodeField number v) v ∧
      ∀ {name : String} {l : Layout} (old : Content (.field name number (.plain s)))
        (rest : Record l),
        ReadsField number s.wireType
          ((Record.cons old rest).mergeField budget.below number s.wireType)
          (s.encodeField number v) (.cons (.plain v) rest)) ∧
    ∀ {e : Element} {vs : Items e}, (∀ v ∈ vs.toList, v.Fits ∧ v.depth ≤ budget.levels) →
      ∀ (before : List (Item e)) (start : Nat),
        runWindow (untilEmpty (Item.addNext budget.below) before)
          (window start (vs.encode number)) = .ok (before ++ vs.toList) := by
  have hrestores : budget.below.Restores budget.levels := Below.ofLevels_restores budget.levels
  refine ⟨fun {e v} hfits hdepth => ?_, fun {s v} hfits => ?_, fun {e vs} hvalues =>
    Items.runWindow_addNext hrestores hpos hmax hvalues⟩
  · have hreads := Item.encode_readsField hrestores hpos hmax hfits hdepth
    refine ⟨v.length_encode number, hreads, fun old rest => Record.readsField_cons ?_ rest⟩
    rw [Content.mergeField_optional]
    exact hreads.map Content.present
  · have hreads := s.encodeField_readsField hpos hmax hfits
    refine ⟨s.length_encodeField number v, hreads, fun old rest => Record.readsField_cons ?_ rest⟩
    rw [Content.mergeField_plain]
    exact hreads.map Content.plain

/-- A message with a text in it. -/
def Item.inner (text : String) : Item (.message .nestedInner) := .message (.cons (.plain text) .nil)

/-- Under a number whose tag takes two bytes, and behind bytes that were read: the tag is read and
then the message, in place of the one that was there, and the byte behind it is left. -/
theorem Message.every_field_read_in_place_over_old :
    (1 ≤ 17 ∧ 17 ≤ FieldNumber.max) ∧
    ((Item.inner "x").Fits ∧ (Item.inner "x").depth ≤ Budget.standard.levels) ∧
    ∃ r, tag.run ⟨3, 2, [138, 1, 3, 10, 1, 120, 255]⟩ = .ok (17, .lengthDelimited) r ∧
      (Record.mergeField Budget.standard.below 17 .lengthDelimited
        (.cons (.present (.inner "old")) .nil :
          Record [.field "child" 17 (.optional (.message .nestedInner))])).run r
        = .ok (.cons (.present (.inner "x")) .nil) ⟨3, 8, [255]⟩ := by
  have hnumber : 1 ≤ 17 ∧ 17 ≤ FieldNumber.max := by decide
  have hfits : (Item.inner "x").Fits := by decide
  have hdepth : (Item.inner "x").depth ≤ Budget.standard.levels := by decide
  exact ⟨hnumber, ⟨hfits, hdepth⟩,
    ((every_field_read_in_place hnumber.1 hnumber.2 .standard).1 hfits hdepth).2.2 _ .nil 3 2 [255]⟩

end Protowire
