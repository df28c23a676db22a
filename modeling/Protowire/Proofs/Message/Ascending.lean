import Protowire.Proofs.Message.RoundTrip
import Protowire.Proofs.Wire.Fields

/-!
# Proofs/Message/Ascending — messages are written in the order of their field numbers

Every layout lists its fields by ascending number (`MessageType.layout_ascending`), and each slot is
written as nothing, as one field, or as a run of fields of one number (`Content.numbers_of_writes`).
So the numbers that a splitter finds in an encoding never fall, and only lists that are not packed
and maps have a number more than once (`WrittenOrder`).
-/

namespace Protowire

/-! ## Written fields in an input -/

namespace WireField

open Reader Decode

/-- A written field as it stands in the input. -/
def toRaw (f : WireField) : RawField :=
  ⟨f.number, f.payload.wireType, Tag.encode f.number f.payload.wireType, f.payload.encode⟩

/-- A payload is skipped whole. -/
theorem skip_reads {p : Payload} (hfits : p.Fits) : Reads (skip p.wireType) p.encode () := fun n => by
  obtain ⟨body, hread⟩ := occurrence_readsAt (n := n) hfits
  rw [skip_eq]
  exact hread.bind_nil (.pure ())

/-- **A field that is written is complete**: a splitter finds it wherever it stands. -/
theorem Valid.isComplete_toRaw {f : WireField} (h : f.Valid) : f.toRaw.IsComplete := fun n => by
  have htag : Reads tag (Tag.encode f.number f.payload.wireType) (f.number, f.payload.wireType) :=
    fun _ => tag_readsAt h.pos h.le_max f.payload.wireType
  exact (htag.traced n).bind (((skip_reads h.payload_fits).traced _).bind_nil (.pure f.toRaw))

/-- **What is written splits into the fields it was written as.** -/
theorem split_encodeAll {fields : List WireField} (h : ∀ f ∈ fields, f.Valid) :
    RawField.split (encodeAll fields) = .ok (fields.map toRaw) := by
  refine RawField.split_eq_ok_iff.2 ⟨fun g hg => ?_, List.flatMap_map ..⟩
  obtain ⟨f, hf, rfl⟩ := List.mem_map.1 hg
  exact (h f hf).isComplete_toRaw

end WireField

/-! ## Numbers in the order of a layout -/

/-- May fields of this shape come more than once?  A packed list comes as one field. -/
def Shape.mayRepeat : Shape → Bool
  | repeated _ packed => !packed
  | map _ _ => true
  | plain _ | optional _ => false

/-- **Field numbers as a message of the layout is written**: all of them are its own, none comes
after a larger one, those that come twice belong to a list or a map, and of a oneof there is at most
one. -/
structure WrittenOrder (l : Layout) (numbers : List Nat) : Prop where
  declared : ∀ n ∈ numbers, n ∈ l.numbers
  ascending : numbers.Pairwise (· ≤ ·)
  repeats : ∀ n, 2 ≤ numbers.count n →
    ∃ name shape, Slot.field name n shape ∈ l ∧ shape.mayRepeat = true
  chosen : ∀ name members, Slot.oneof name members ∈ l →
    numbers.countP (· ∈ members.map (·.number)) ≤ 1

namespace WrittenOrder

variable {slot : Slot} {l : Layout} {n : Nat}

theorem nil (l : Layout) : WrittenOrder l [] where
  declared := nofun
  ascending := .nil
  repeats _ h := absurd h (by simp)
  chosen _ _ _ := by simp

/-- A slot may be written as one field. -/
theorem singleton (h : n ∈ slot.numbers) : WrittenOrder [slot] [n] where
  declared n' hn' := by
    obtain rfl := List.mem_singleton.1 hn'
    exact List.mem_append_left _ h
  ascending := List.pairwise_singleton _ n
  repeats n' htwice := by
    have hone : [n].count n' ≤ 1 := List.count_le_length
    omega
  chosen _ _ _ := List.countP_le_length

/-- A list or a map may be written as any number of fields. -/
theorem run (name : String) {shape : Shape} (h : shape.mayRepeat = true) {numbers : List Nat}
    (hall : ∀ n' ∈ numbers, n' = n) : WrittenOrder [.field name n shape] numbers where
  declared n' hn' := List.mem_append_left _ (List.mem_singleton.2 (hall n' hn'))
  ascending := List.pairwise_of_forall_mem_list fun a ha b hb =>
    Nat.le_of_eq ((hall a ha).trans (hall b hb).symm)
  repeats n' htwice := by
    have hmem : n' ∈ numbers := List.count_pos_iff.1 (by omega)
    exact ⟨name, shape, hall n' hmem ▸ List.mem_singleton_self _, h⟩
  chosen _ _ hmem := absurd (List.mem_singleton.1 hmem) nofun

/-- **The fields of a slot come before those of the slots behind it**, whose numbers are larger. -/
theorem append {first others : List Nat} (h : WrittenOrder [slot] first)
    (h' : WrittenOrder l others) (hlt : ∀ a ∈ slot.numbers, ∀ b ∈ l.numbers, a < b) :
    WrittenOrder (slot :: l) (first ++ others) := by
  have hfirst : ∀ a ∈ first, a ∈ slot.numbers := fun a ha => by
    have hmem := h.declared a ha
    rwa [Layout.numbers, List.flatMap_singleton] at hmem
  have hapart : ∀ a ∈ first, a ∉ l.numbers := fun a ha hb =>
    Nat.lt_irrefl a (hlt a (hfirst a ha) a hb)
  refine ⟨fun n hn => ?_, ?_, fun n hn => ?_, fun name members hmem => ?_⟩
  · rcases List.mem_append.1 hn with hn | hn
    · exact List.mem_append_left l.numbers (hfirst n hn)
    · exact List.mem_append_right slot.numbers (h'.declared n hn)
  · exact List.pairwise_append.2 ⟨h.ascending, h'.ascending, fun a ha b hb =>
      Nat.le_of_lt (hlt a (hfirst a ha) b (h'.declared b hb))⟩
  · -- A number belongs to one of the two sides only.
    rw [List.count_append] at hn
    by_cases hin : n ∈ first
    · have hout : others.count n = 0 := List.count_eq_zero.2 fun hmem =>
        hapart n hin (h'.declared n hmem)
      obtain ⟨name, shape, hfield, hrepeat⟩ := h.repeats n (by omega)
      exact ⟨name, shape, List.mem_singleton.1 hfield ▸ List.mem_cons_self, hrepeat⟩
    · have hout : first.count n = 0 := List.count_eq_zero.2 hin
      obtain ⟨name, shape, hfield, hrepeat⟩ := h'.repeats n (by omega)
      exact ⟨name, shape, List.mem_cons_of_mem slot hfield, hrepeat⟩
  · rw [List.countP_append]
    rcases List.mem_cons.1 hmem with rfl | hmem
    · have hout : others.countP (· ∈ members.map (·.number)) = 0 :=
        List.countP_eq_zero.2 fun b hb hin => by
          have hin : b ∈ members.map (·.number) := of_decide_eq_true hin
          exact Nat.lt_irrefl b (hlt b hin b (h'.declared b hb))
      have hone := h.chosen name members (List.mem_singleton_self _)
      omega
    · have hout : first.countP (· ∈ members.map (·.number)) = 0 :=
        List.countP_eq_zero.2 fun a ha hin => by
          have hin : a ∈ members.map (·.number) := of_decide_eq_true hin
          exact hapart a ha (List.mem_flatMap.2 ⟨_, hmem, hin⟩)
      have hone := h'.chosen name members hmem
      omega

end WrittenOrder

/-! ## The order of what is written -/

/-- The layout lists its fields by ascending number. -/
def Layout.Ascending (l : Layout) : Prop := l.numbers.Pairwise (· < ·)

/-- **The layout of every message type lists its fields by ascending number.** -/
theorem MessageType.layout_ascending (t : MessageType) : Layout.Ascending t.layout := by
  cases t <;> unfold Layout.Ascending <;> decide

/-- **A slot is written in order**: as no field, as one, or as a run of fields of one number. -/
theorem Content.writtenOrder_of_writes {slot : Slot} {c : Content slot} {fields : List WireField}
    (hw : c.Writes fields) : WrittenOrder [slot] (fields.map (·.number)) := by
  have hnumbers : ∀ n ∈ fields.map (·.number), n ∈ slot.numbers := fun n hn => by
    obtain ⟨f, hf, rfl⟩ := List.mem_map.1 hn
    exact number_mem_of_writes hw hf
  cases c with
  | @plain name number s v =>
    obtain rfl : fields = if v = s.zero then [] else [⟨number, s.toPayload v⟩] := hw
    split
    · exact .nil _
    · exact .singleton (List.mem_singleton_self number)
  | absent | unset =>
    obtain rfl : fields = [] := hw
    exact .nil _
  | present v =>
    obtain ⟨p, -, rfl⟩ := hw
    exact .singleton (List.mem_singleton_self _)
  | @repeated name number e packed vs =>
    obtain ⟨ps, -, rfl⟩ := hw
    cases packed with
    | false => exact .run name rfl fun n hn => List.mem_singleton.1 (hnumbers n hn)
    | true =>
      cases ps with
      | nil => exact .nil _
      | cons p ps => exact .singleton (List.mem_singleton_self number)
  | map entries => exact .run _ rfl fun n hn => List.mem_singleton.1 (hnumbers n hn)
  | chosen m hm v =>
    obtain ⟨p, -, rfl⟩ := hw
    exact .singleton (List.mem_map_of_mem hm)

/-- **A record is written in the order of its layout**, slot by slot. -/
theorem Record.writtenOrder_of_writes : ∀ {l : Layout} {r : Record l} {fields : List WireField},
    l.Ascending → r.Writes fields → WrittenOrder l (fields.map (·.number))
  | _, .nil, _, _, hw => by
    obtain rfl : _ = [] := hw
    exact .nil []
  | slot :: l, .cons c rest, _, hlayout, hw => by
    obtain ⟨first, others, hc, hrest, rfl⟩ := hw
    obtain ⟨-, htail, hlt⟩ := List.pairwise_append.1 hlayout
    rw [List.map_append]
    exact (Content.writtenOrder_of_writes hc).append (writtenOrder_of_writes htail hrest) hlt

namespace Message

variable {t : MessageType}

/-- What a message is written as splits into fields in the order of its layout. -/
theorem split_of_writes {m : Message t} {fields : List WireField} (hw : m.Writes fields)
    (hfits : (WireField.encodeAll fields).length < 2 ^ 64) :
    ∃ found, RawField.split (WireField.encodeAll fields) = .ok found ∧
      WrittenOrder t.layout (found.map (·.number)) := by
  refine ⟨_, WireField.split_encodeAll (valid_of_writes hw hfits), ?_⟩
  rw [List.map_map]
  exact Record.writtenOrder_of_writes t.layout_ascending hw

/-- **Messages are written by ascending field number.**  The encoding of a message, when a length
can say how long it is, splits by tags and skipping to its end; the numbers found are those of its
type and never fall, only lists that are not packed and maps have a number more than once, and of
each oneof at most one member is there.  That is so in whatever order the pairs of maps stand. -/
theorem fields_written_in_order (m : Message t) (hfits : m.encode.length < 2 ^ 64) :
    (∃ found, RawField.split m.encode = .ok found ∧
      WrittenOrder t.layout (found.map (·.number))) ∧
    ∀ fields, m.Writes fields → ∃ found,
      RawField.split (WireField.encodeAll fields) = .ok found ∧
        WrittenOrder t.layout (found.map (·.number)) := by
  rw [length_encode] at hfits
  have hall : ∀ fields, m.Writes fields → ∃ found,
      RawField.split (WireField.encodeAll fields) = .ok found ∧
        WrittenOrder t.layout (found.map (·.number)) := fun fields hw =>
    split_of_writes hw (by rwa [Record.length_of_writes hw])
  obtain ⟨fields, hw, hencode⟩ := Record.exists_writes_encode m
  have hencoded := hall fields hw
  rw [hencode] at hencoded
  exact ⟨hencoded, hall⟩

/-- A message with a number, a packed list, a list that is not packed and a choice. -/
def branch : Message .foo :=
  .cons (.plain (1 : Int32)) (.cons (.plain (0 : UInt64)) (.cons (.plain (0 : Int32))
    (.cons (.plain (0 : Int64)) (.cons (.repeated (.ofList [.scalar (1 : UInt32), .scalar 2]))
    (.cons (.plain (0 : UInt64)) (.cons (.plain (0 : Int64)) (.cons (.plain (0 : UInt32))
    (.cons (.plain (0 : UInt64)) (.cons (.plain (0 : Int32)) (.cons (.plain (0 : Int64))
    (.cons (.plain (0 : UInt32)) (.cons (.plain (0 : Int32)) (.cons (.plain ([] : Bytes))
    (.cons (.plain false) (.cons (.repeated (.ofList [.scalar "a", .scalar "b"]))
    (.cons .absent (.cons (.chosen ⟨"id", 19, .scalar .int32⟩ (by decide) (.scalar (5 : Int32)))
      .nil)))))))))))))))))

/-- The packed list comes as one field, the other list as two of one number, and one member of the
oneof comes last. -/
theorem fields_written_in_order_branch :
    branch.encode.length < 2 ^ 64 ∧
    branch.encode = [8, 1, 42, 2, 1, 2, 130, 1, 1, 97, 130, 1, 1, 98, 152, 1, 5] ∧
    ∃ found, RawField.split branch.encode = .ok found ∧
      found.map (·.number) = [1, 5, 16, 16, 19] ∧
      WrittenOrder MessageType.foo.layout [1, 5, 16, 16, 19] := by
  have hfits : branch.encode.length < 2 ^ 64 := by decide
  have hencode : branch.encode
      = [8, 1, 42, 2, 1, 2, 130, 1, 1, 97, 130, 1, 1, 98, 152, 1, 5] := by decide
  obtain ⟨found, hsplit, horder⟩ := (fields_written_in_order branch hfits).1
  have hnumbers : found.map (·.number) = [1, 5, 16, 16, 19] := by
    have hfound : RawField.split branch.encode = .ok [⟨1, .varint, [8], [1]⟩,
        ⟨5, .lengthDelimited, [42], [2, 1, 2]⟩, ⟨16, .lengthDelimited, [130, 1], [1, 97]⟩,
        ⟨16, .lengthDelimited, [130, 1], [1, 98]⟩, ⟨19, .varint, [152, 1], [5]⟩] := by
      rw [hencode]
      rfl
    rw [Except.ok.inj (hsplit.symm.trans hfound)]
    rfl
  exact ⟨hfits, hencode, found, hsplit, hnumbers, hnumbers ▸ horder⟩

end Message

end Protowire
