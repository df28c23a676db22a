import Protowire.Proofs.Message.Framing
import Protowire.Proofs.Wire.Truncation

/-!
# Proofs/Message/Truncation — an input that is cut off is taken up only if it is cut between fields

The fields before a cut are taken up as before.  When the cut is between two fields, that is all
there is to read; when it is inside one, the checks on that field pass as they did, and its payload
or its tag is found too short (`Decode.DetectsCuts`).
-/

namespace Protowire

theorem Reader.takeUp_detectsCuts {α : Type} (accept : Nat → Except DecodeError Unit)
    (wireType : WireType) (use : Occurrence → Except DecodeError α) :
    Decode.DetectsCuts (takeUp accept wireType use) :=
  .offset (f := fun offset => do
      Decode.ofExcept (accept offset)
      Decode.ofExcept (use (← occurrence wireType))) fun offset =>
    (Decode.DetectsCuts.ofExcept (accept offset)).bind (.ofExcept (accept offset)) fun _ =>
      (occurrence_detectsCuts wireType).bind (occurrence_local wireType) fun o => .ofExcept (use o)

theorem Record.mergeField_detectsCuts {l : Layout} (below : Below) (number : Nat)
    (wireType : WireType) (r : Record l) :
    Decode.DetectsCuts (r.mergeField below number wireType) := by
  rw [mergeField_eq]
  exact Reader.takeUp_detectsCuts (fun offset => accept below number wireType offset l) wireType
    (r.absorb below number)

theorem Record.mergeNext_detectsCuts {l : Layout} (below : Below) (r : Record l) :
    Decode.DetectsCuts (r.mergeNext below) :=
  Reader.tag_detectsCuts.bind Reader.tag_local fun found =>
    mergeField_detectsCuts below found.1 found.2 r

/-! ## Cuts -/

namespace RawField

variable {fields : List RawField}

/-- Where the field with this place in a list starts; behind the last field, where that one ends. -/
def startOf (fields : List RawField) (n : Nat) : Nat :=
  ((fields.take n).flatMap RawField.bytes).length

/-- The bytes of the fields before a place and of those behind it. -/
theorem flatMap_take_append_drop (fields : List RawField) (n : Nat) :
    (fields.take n).flatMap RawField.bytes ++ (fields.drop n).flatMap RawField.bytes
      = fields.flatMap RawField.bytes := by
  rw [← List.flatMap_append, List.take_append_drop]

/-- Bytes up to the start of a field are those of the fields before it. -/
theorem take_startOf (fields : List RawField) (n : Nat) :
    (fields.flatMap RawField.bytes).take (startOf fields n)
      = (fields.take n).flatMap RawField.bytes := by
  rw [← flatMap_take_append_drop fields n, startOf, List.take_left]

/-- Bytes up to a place inside a field are those of the fields before it and some of its own. -/
theorem take_startOf_add {n k : Nat} (hn : n < fields.length) (hk : k ≤ fields[n].bytes.length) :
    (fields.flatMap RawField.bytes).take (startOf fields n + k)
      = (fields.take n).flatMap RawField.bytes ++ fields[n].bytes.take k := by
  rw [← flatMap_take_append_drop fields n, startOf, List.take_length_add_append,
    List.drop_eq_getElem_cons hn, List.flatMap_cons, List.take_append_of_le_length hk]

/-- The next field starts where this one ends. -/
theorem startOf_succ {n : Nat} (hn : n < fields.length) :
    startOf fields (n + 1) = startOf fields n + fields[n].bytes.length := by
  rw [startOf, List.take_succ_eq_append_getElem hn, List.flatMap_append, List.length_append,
    List.flatMap_singleton, startOf]

/-- **A cut that is not where a field starts is inside one.** -/
theorem exists_startOf_lt {c : Nat} (hc : ∀ n, c ≠ startOf fields n) :
    ∀ {n : Nat}, c ≤ startOf fields n → ∃ k < n, startOf fields k < c ∧ c < startOf fields (k + 1)
  | 0, hle => absurd (Nat.le_zero.1 hle) (hc 0)
  | n + 1, hle => by
    rcases Nat.lt_or_ge (startOf fields n) c with hlt | hge
    · exact ⟨n, Nat.lt_succ_self n, hlt, Nat.lt_of_le_of_ne hle (hc (n + 1))⟩
    · obtain ⟨k, hk, hbetween⟩ := exists_startOf_lt hc hge
      exact ⟨k, Nat.lt_succ_of_lt hk, hbetween⟩

end RawField

namespace Message

variable {t : MessageType} {budget : Budget}

/-- **Truncation is always detected.**  Let a message take up an input.  It takes up the input up to
the start of any field, and up to any other place it does not: the fault is that of an input which
ends too early, and lies between the start of the field that is cut and the cut. -/
theorem truncation_detected {m m' : Message t} {bytes : Bytes}
    (h : m.mergeWithin budget bytes = .ok m') :
    ∃ fields, RawField.split bytes = .ok fields ∧
      (∀ n, ∃ m₁, m.mergeWithin budget (bytes.take (RawField.startOf fields n)) = .ok m₁) ∧
      ∀ c < bytes.length, (∀ n, c ≠ RawField.startOf fields n) →
        ∃ n < fields.length, RawField.startOf fields n < c ∧ c < RawField.startOf fields (n + 1) ∧
          ∃ e, m.mergeWithin budget (bytes.take c) = .error e ∧
            e.CutOffWithin (RawField.startOf fields n) c := by
  obtain ⟨fields, hsplit, -, -⟩ := mergeWithin_eq_ok_iff.1 h
  obtain ⟨hcomplete, rfl⟩ := RawField.split_eq_ok_iff.1 hsplit
  have hstep : Reader.FieldStep (Record.mergeNext (l := t.layout) budget.below) :=
    Record.fieldStep_mergeNext (budget.below_shifts ·)
  -- What is taken up of the fields in front of a place, and then of the others.
  have hbefore : ∀ n, ∃ m₁,
      Reader.Leads (Record.mergeNext budget.below) ((fields.take n).flatMap RawField.bytes) m m₁ ∧
      Reader.Leads (Record.mergeNext budget.below) ((fields.drop n).flatMap RawField.bytes) m₁ m' :=
    fun n => by
      have hfront : RawField.split ((fields.take n).flatMap RawField.bytes) = .ok (fields.take n) :=
        RawField.split_eq_ok_iff.2 ⟨fun f hf => hcomplete f (List.mem_of_mem_take hf), rfl⟩
      refine (hstep.leads_append_iff hfront).1 ?_
      rw [RawField.flatMap_take_append_drop]
      exact h
  refine ⟨fields, hsplit, fun n => ?_, fun c hlt hc => ?_⟩
  · obtain ⟨m₁, hm₁, -⟩ := hbefore n
    rw [RawField.take_startOf]
    exact ⟨m₁, hm₁⟩
  · have hle : c ≤ RawField.startOf fields fields.length := by
      rw [RawField.startOf, List.take_length]
      exact Nat.le_of_lt hlt
    obtain ⟨n, hn, hstart, hend⟩ := RawField.exists_startOf_lt hc hle
    obtain ⟨m₁, hm₁, hrest⟩ := hbefore n
    rw [List.drop_eq_getElem_cons hn, List.flatMap_cons,
      hstep.leads_cons_iff (hcomplete _ (List.getElem_mem hn))] at hrest
    obtain ⟨m₂, hreads, -⟩ := hrest
    -- The part of the field that is left, and the part that is cut off.
    obtain ⟨k, rfl⟩ : ∃ k, c = RawField.startOf fields n + k := ⟨_, (Nat.add_sub_of_le
      (Nat.le_of_lt hstart)).symm⟩
    have hpos : 0 < k := Nat.pos_of_lt_add_right hstart
    have hshort : k < fields[n].bytes.length := by
      rw [RawField.startOf_succ hn] at hend
      exact Nat.lt_of_add_lt_add_left hend
    have hfront : fields[n].bytes.take k ≠ [] :=
      List.ne_nil_of_length_pos (by rwa [List.length_take_of_le (Nat.le_of_lt hshort)])
    have hback : fields[n].bytes.drop k ≠ [] := fun hnil =>
      Nat.not_le.2 hshort (List.drop_eq_nil_iff.1 hnil)
    rw [← List.take_append_drop k fields[n].bytes] at hreads
    obtain ⟨e, herror, hwithin⟩ :=
      hstep.exists_error_of_cut (Record.mergeNext_detectsCuts budget.below) hm₁ hreads hfront hback
    rw [List.length_append, List.length_take_of_le (Nat.le_of_lt hshort)] at hwithin
    refine ⟨n, hn, hstart, hend, e, ?_, hwithin⟩
    rw [RawField.take_startOf_add hn (Nat.le_of_lt hshort)]
    exact herror

/-- A message in a message and a field it does not know: seven bytes that are cut behind the third,
inside the first field, and behind the fifth, between the two. -/
theorem truncation_detected_two_fields :
    (Message.empty .nestedMessage).mergeWithin .standard [10, 3, 10, 1, 120, 16, 5]
        = .ok (.cons (.present (.message (.cons (.plain "x") .nil))) .nil) ∧
      (∃ m₁, (Message.empty .nestedMessage).mergeWithin .standard [10, 3, 10, 1, 120] = .ok m₁) ∧
      ∃ e, (Message.empty .nestedMessage).mergeWithin .standard [10, 3, 10] = .error e ∧
        e.CutOffWithin 0 3 := by
  have h : (Message.empty .nestedMessage).mergeWithin .standard [10, 3, 10, 1, 120, 16, 5]
      = .ok (.cons (.present (.message (.cons (.plain "x") .nil))) .nil) := rfl
  obtain ⟨fields, hsplit, hbetween, hinside⟩ := truncation_detected h
  obtain rfl : [⟨1, .lengthDelimited, [10], [3, 10, 1, 120]⟩, ⟨2, .varint, [16], [5]⟩] = fields :=
    Except.ok.inj hsplit
  obtain ⟨n, hn, hlt, -, e, herror, hwithin⟩ := hinside 3 (by decide) fun
    | 0 => by decide
    | 1 => by decide
    | n + 2 => by simp [RawField.startOf, RawField.bytes]
  exact ⟨h, hbetween 1, e, herror, hwithin.mono (Nat.zero_le _) (Nat.le_refl 3)⟩

end Message

end Protowire
