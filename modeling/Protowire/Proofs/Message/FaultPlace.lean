import Protowire.Proofs.Message.Framing
import Protowire.Proofs.Wire.FaultPlace

/-!
# Proofs/Message/FaultPlace — a fault lies in the field that is refused

What accepts a field faults at the field, what uses its payload faults within the payload, and the
decoders one level down read within it (`Below.FaultsWithin`).  So the fault of an input lies in one
of its fields: those in front of it are taken up, and the fault is found on taking up this one.
-/

namespace Protowire

variable {lo hi : Nat}

/-- A field is refused within these places, when what accepts it and what uses its payload refuse
it there. -/
theorem Reader.takeUp_faultsWithin {α : Type} {accept : Nat → Except DecodeError Unit}
    {use : Occurrence → Except DecodeError α} (wireType : WireType)
    (haccept : ∀ n, lo ≤ n → n ≤ hi → FaultsWithin lo hi (accept n))
    (huse : ∀ o : Occurrence, o.InWindow lo hi → FaultsWithin lo hi (use o)) :
    Decode.FaultsWithin lo hi (takeUp accept wireType use) :=
  .offset (g := fun offset => do
      Decode.ofExcept (accept offset)
      Decode.ofExcept (use (← occurrence wireType))) fun offset hlo hhi =>
    (Decode.FaultsWithin.ofExcept (haccept offset hlo hhi)).bind (.ofExcept _) fun _ =>
      (occurrence_faultsWithin wireType).bind_of_run (occurrence_local wireType) fun hr hrun =>
        .ofExcept (huse _ (inWindow_of_run_occurrence hr hrun))

/-! ## Accepting a field -/

theorem WireType.check_faultsWithin (expected actual : WireType) :
    FaultsWithin lo hi (expected.check actual) := by
  unfold check
  split
  · exact .ok ()
  · exact .error trivial

theorem Below.check_faultsWithin (below : Below) {offset : Nat} (hlo : lo ≤ offset)
    (hhi : offset ≤ hi) : FaultsWithin lo hi (below.check offset) := by
  unfold check
  split
  · exact .ok ()
  · exact .error ⟨hlo, hhi⟩

/-- A field that is not accepted is refused where it is. -/
theorem Acceptance.faultsWithin {accept : Below → Nat → Except DecodeError Unit}
    (h : Acceptance accept) (below : Below) (offset : Nat) (hlo : lo ≤ offset) (hhi : offset ≤ hi) :
    FaultsWithin lo hi (accept below offset) := by
  cases h with
  | always => exact .ok ()
  | framed expected actual => exact WireType.check_faultsWithin expected actual
  | nested expected actual =>
    exact (WireType.check_faultsWithin expected actual).bind fun _ =>
      below.check_faultsWithin hlo hhi

/-! ## Using a payload -/

/-- The decoders one level down find their faults where they read. -/
def Below.FaultsWithin (below : Below) : Prop :=
  ∀ decode, below = some decode → ∀ t lo hi, Decode.FaultsWithin lo hi (decode t)

variable {below : Below} {o : Occurrence}

/-- A word that is none of the kind is a mismatch of wire types, which has no place. -/
theorem FaultsWithin.elim_mismatch {α : Type} (expected actual : WireType) (v : Option α) :
    FaultsWithin lo hi (v.elim (.error (.wireTypeMismatch expected actual)) .ok) := by
  cases v with
  | none => exact .error trivial
  | some a => exact .ok a

namespace Scalar

variable (s : Scalar)

theorem ofOccurrence_faultsWithin (ho : o.InWindow lo hi) :
    FaultsWithin lo hi (s.ofOccurrence o) := by
  obtain ⟨offset, body, payload⟩ := o
  cases payload with
  | varint word => exact .elim_mismatch s.wireType .varint (s.ofVarint? word)
  | fixed64 word => exact .elim_mismatch s.wireType .fixed64 (s.ofFixed64? word)
  | fixed32 word => exact .elim_mismatch s.wireType .fixed32 (s.ofFixed32? word)
  | delimited bytes =>
    simp only [ofOccurrence]
    split
    · exact .ok _
    · cases Bytes.toString? bytes with
      | none => exact .error ⟨ho.le_offset, ho.offset_le⟩
      | some text => exact .ok text
    · exact .error trivial

theorem read_faultsWithin : Decode.FaultsWithin lo hi s.read := by
  rw [read_eq]
  exact Reader.takeUp_faultsWithin s.wireType (fun _ _ _ => .ok ())
    fun _ => s.ofOccurrence_faultsWithin

theorem merge_faultsWithin (wireType : WireType) :
    Decode.FaultsWithin lo hi (s.merge wireType) :=
  (Decode.FaultsWithin.ofExcept (WireType.check_faultsWithin s.wireType wireType)).bind
    (.ofExcept _) fun _ => s.read_faultsWithin

theorem readPacked_faultsWithin : Decode.FaultsWithin lo hi s.readPacked :=
  .untilEmpty
    (fun vs => s.read_consumes.bind fun v => .pure (vs ++ [v]))
    (fun vs => s.read_local.bind fun v => .pure (vs ++ [v]))
    (fun vs => s.read_faultsWithin.bind s.read_local fun v => .pure (vs ++ [v])) []

end Scalar

namespace Element

theorem read_faultsWithin (h : below.FaultsWithin) (e : Element) (ho : o.InWindow lo hi) :
    FaultsWithin lo hi (e.read below o) := by
  cases e with
  | scalar s => exact (s.ofOccurrence_faultsWithin ho).map Item.scalar
  | message t =>
    obtain ⟨offset, body, payload⟩ := o
    cases below with
    | none => exact .error ⟨ho.le_offset, ho.offset_le⟩
    | some decode =>
      cases payload with
      | delimited bytes =>
        exact ((h decode rfl t lo hi).runWindow (ho.body bytes rfl)).map Item.message
      | varint word => exact .error trivial
      | fixed64 word => exact .error trivial
      | fixed32 word => exact .error trivial

theorem readMany_faultsWithin (h : below.FaultsWithin) (e : Element) (ho : o.InWindow lo hi) :
    FaultsWithin lo hi (e.readMany below o) := by
  have hsingle : ∀ e : Element, FaultsWithin lo hi ((fun v => [v]) <$> e.read below o) :=
    fun e => (read_faultsWithin h e ho).map fun v => [v]
  cases e with
  | message t => exact hsingle (.message t)
  | scalar s =>
    obtain ⟨offset, body, payload⟩ := o
    cases payload with
    | varint word => exact hsingle (.scalar s)
    | fixed64 word => exact hsingle (.scalar s)
    | fixed32 word => exact hsingle (.scalar s)
    | delimited bytes =>
      simp only [readMany]
      split
      · exact (s.readPacked_faultsWithin.runWindow (ho.body bytes rfl)).map _
      · exact hsingle (.scalar s)

end Element

theorem Item.merge_faultsWithin (h : below.FaultsWithin) (e : Element) (wireType : WireType) :
    Decode.FaultsWithin lo hi (Item.merge below e wireType) := by
  rw [Item.merge_eq]
  exact Reader.takeUp_faultsWithin wireType ((e.acceptance wireType).faultsWithin below)
    fun _ => Element.read_faultsWithin h e

namespace Entry

variable {key : Scalar} {e : Element}

theorem mergeField_faultsWithin (h : below.FaultsWithin) (number : Nat) (wireType : WireType)
    (entry : Entry key e) : Decode.FaultsWithin lo hi (entry.mergeField below number wireType) := by
  rw [mergeField]
  split
  · exact (key.merge_faultsWithin wireType).bind (key.merge_local wireType) fun v =>
      .pure { entry with key := v }
  · split
    · exact (Item.merge_faultsWithin h e wireType).bind (Item.merge_local below e wireType)
        fun v => .pure { entry with value := v }
    · exact (Reader.skip_faultsWithin wireType).bind (Reader.skip_local wireType) fun _ =>
        .pure entry

theorem mergeNext_faultsWithin (h : below.FaultsWithin) (entry : Entry key e) :
    Decode.FaultsWithin lo hi (entry.mergeNext below) :=
  Reader.tag_faultsWithin.bind Reader.tag_local fun found =>
    mergeField_faultsWithin h found.1 found.2 entry

theorem read_faultsWithin (h : below.FaultsWithin) (ho : o.InWindow lo hi) :
    FaultsWithin lo hi (Entry.read below key e o) := by
  obtain ⟨offset, body, payload⟩ := o
  cases payload with
  | delimited bytes =>
    exact (Decode.FaultsWithin.untilEmpty (mergeNext_consumes below) (mergeNext_local below)
      (mergeNext_faultsWithin h) (empty key e)).runWindow (ho.body bytes rfl)
  | varint word => exact .error trivial
  | fixed64 word => exact .error trivial
  | fixed32 word => exact .error trivial

end Entry

/-- With no level left nothing is read. -/
theorem Below.faultsWithin_none : Below.FaultsWithin none := nofun

/-- A payload of which nothing can be made has its fault where it was read. -/
theorem Absorption.faultsWithin {β : Type} {absorb : Below → Occurrence → Except DecodeError β}
    (h : Absorption absorb) (hbelow : below.FaultsWithin) (ho : o.InWindow lo hi) :
    FaultsWithin lo hi (absorb below o) := by
  cases h with
  | dropped b => exact .ok b
  | scalar s f => exact (s.ofOccurrence_faultsWithin ho).map f
  | item e f => exact (Element.read_faultsWithin hbelow e ho).map f
  | items e f => exact (Element.readMany_faultsWithin hbelow e ho).map f
  | entry k v f => exact (Entry.read_faultsWithin Below.faultsWithin_none ho).map f

/-! ## Records -/

namespace Record

variable {l : Layout}

theorem mergeField_faultsWithin (h : below.FaultsWithin) (number : Nat) (wireType : WireType)
    (r : Record l) : Decode.FaultsWithin lo hi (r.mergeField below number wireType) := by
  rw [mergeField_eq]
  exact Reader.takeUp_faultsWithin wireType ((acceptance number wireType l).faultsWithin below)
    fun _ => (r.absorption number).faultsWithin h

/-- **A field that a record refuses has its fault where the record read.** -/
theorem mergeNext_faultsWithin (h : below.FaultsWithin) (r : Record l) :
    Decode.FaultsWithin lo hi (r.mergeNext below) :=
  Reader.tag_faultsWithin.bind Reader.tag_local fun found =>
    mergeField_faultsWithin h found.1 found.2 r

theorem merge_faultsWithin (h : below.FaultsWithin) (r : Record l) :
    Decode.FaultsWithin lo hi (r.merge below) :=
  .untilEmpty (mergeNext_consumes below) (mergeNext_local below) (mergeNext_faultsWithin h) r

end Record

/-- **Messages one level down have their faults where they were read**, on every level. -/
theorem Below.ofLevels_faultsWithin : ∀ levels, (ofLevels levels).FaultsWithin
  | 0 => faultsWithin_none
  | levels + 1 => by
    rintro decode hdecode t lo hi
    obtain rfl := Option.some.inj hdecode
    exact Record.merge_faultsWithin (ofLevels_faultsWithin levels) (Record.empty t.layout)

namespace Message

variable {t : MessageType} {budget : Budget}

/-- **A fault is in the field that is refused.**  Let a message refuse an input.  Then some of its
fields are taken up, the one that follows them is refused with that very fault, and the place of
the fault is from the start of this field to the end of the input.  If the fault is that bytes are
missing, then more are needed than are left, and those that are left belong to the input. -/
theorem exists_refused_field {m : Message t} {bytes : Bytes} {e : DecodeError}
    (h : m.mergeWithin budget bytes = .error e) :
    ∃ start < bytes.length, ∃ fields m₁,
      RawField.split (bytes.take start) = .ok fields ∧
      m.mergeWithin budget (bytes.take start) = .ok m₁ ∧
      Reader.runWindow (m₁.mergeNext budget.below) ((Reader.ofBytes bytes).advance start)
        = .error e ∧
      (∀ offset, e.offset? = some offset → start ≤ offset ∧ offset ≤ bytes.length) ∧
      ∀ offset needed remaining, e = .truncated offset needed remaining →
        remaining < needed ∧ offset + remaining ≤ bytes.length := by
  obtain ⟨r', hrun⟩ := Reader.runWindow_eq_error.1 h
  obtain ⟨front, back, m₁, hbytes, hback, hfront, hrefused⟩ :=
    Reader.exists_front_of_run_untilEmpty_eq_error (Record.mergeNext_consumes budget.below)
      (Record.mergeNext_local budget.below) hrun
  obtain rfl : bytes = front ++ back := hbytes
  have htaken : m.mergeWithin budget front = .ok m₁ := Reader.runWindow_eq_ok.2
    ⟨_, (Reader.run_untilEmpty_eq_ok (Record.mergeNext_consumes budget.below)).2 hfront⟩
  obtain ⟨fields, hsplit, -, -⟩ := mergeWithin_eq_ok_iff.1 htaken
  -- Behind `front` all that is left is `back`, and it ends where the input does.
  have hplace : (Reader.ofBytes (front ++ back)).advance front.length
      = ⟨0, 0 + front.length, back⟩ := congrArg (Reader.mk 0 _) List.drop_left
  have hwindow : Reader.InWindow front.length (front ++ back).length
      ⟨0, 0 + front.length, back⟩ := by
    constructor <;> simp [Reader.offset, Reader.remaining]
  have hwithin : e.Within front.length (front ++ back).length :=
    Record.mergeNext_faultsWithin (Below.ofLevels_faultsWithin budget.levels) m₁ hwindow hrefused
  refine ⟨front.length, ?_, fields, m₁, ?_, ?_, ?_, fun _ => hwithin.le_offset, ?_⟩
  · rw [List.length_append]
    exact Nat.lt_add_of_pos_right (List.length_pos_iff.2 hback)
  · rwa [List.take_left]
  · rwa [List.take_left]
  · rw [hplace]
    exact Reader.runWindow_eq_error.2 ⟨r', hrefused⟩
  · rintro offset needed remaining rfl
    exact hwithin.2

/-- A message in a message, then one whose text should be two bytes long and has one left: the
second field is refused, for bytes missing at the end of its payload. -/
theorem exists_refused_field_short_text :
    (Message.empty .nestedMessage).mergeWithin .standard [10, 2, 10, 0, 10, 3, 10, 2, 120]
        = .error (.truncated 8 2 1) ∧
      ∃ start ≤ 8, ∃ m₁ : Message .nestedMessage,
        (Message.empty .nestedMessage).mergeWithin .standard
          ([10, 2, 10, 0, 10, 3, 10, 2, 120].take start) = .ok m₁ ∧
        Reader.runWindow (m₁.mergeNext Budget.standard.below)
          ((Reader.ofBytes [10, 2, 10, 0, 10, 3, 10, 2, 120]).advance start)
            = .error (.truncated 8 2 1) ∧
        1 < 2 ∧ 8 + 1 ≤ 9 := by
  have h : (Message.empty .nestedMessage).mergeWithin .standard [10, 2, 10, 0, 10, 3, 10, 2, 120]
      = .error (.truncated 8 2 1) := rfl
  obtain ⟨start, -, -, m₁, -, htaken, hrefused, hplace, hmissing⟩ := exists_refused_field h
  exact ⟨h, start, (hplace 8 rfl).1, m₁, htaken, hrefused, hmissing 8 2 1 rfl⟩

end Message

end Protowire
