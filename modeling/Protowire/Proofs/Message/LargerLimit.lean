import Protowire.Proofs.Message.TakeUp

/-!
# Proofs/Message/LargerLimit — a larger nesting limit changes no answer but a refusal

Two runs over the same bytes, the second with more levels to enter, go alike up to the first level
that only the second may enter; there the first one is refused (`Decode.UpToLimit`).  What went
before and where the refusal is play no part, so sequences, loops and decoders one level down keep
the relation (`Below.UpToLimit`).
-/

namespace Protowire

/-- The same result, or a refusal because of the nesting. -/
def UpToLimit {α : Type} (x y : Except DecodeError α) : Prop :=
  (∃ offset, x = .error (.nestedTooDeep offset)) ∨ x = y

namespace UpToLimit

variable {α β : Type} {x y : Except DecodeError α}

protected theorem refl (x : Except DecodeError α) : UpToLimit x x := .inr rfl

/-- What is made of a value is made of it under both limits. -/
theorem map (f : α → β) (h : UpToLimit x y) : UpToLimit (f <$> x) (f <$> y) := by
  obtain ⟨offset, rfl⟩ | rfl := h
  · exact .inl ⟨offset, rfl⟩
  · exact .refl (f <$> x)

/-- A check in front does not depend on the limit. -/
theorem bind_right (x : Except DecodeError α) {f g : α → Except DecodeError β}
    (h : ∀ a, UpToLimit (f a) (g a)) : UpToLimit (x >>= f) (x >>= g) := by
  cases x with
  | error e => exact .refl (.error e)
  | ok a => exact h a

end UpToLimit

/-! ## Computations -/

namespace Decode

variable {α β σ : Type}

/-- **`x` does what `y` does**, unless it is refused because of the nesting. -/
def UpToLimit (x y : Decode α) : Prop :=
  ∀ r, (∃ offset r', x.run r = .error (.nestedTooDeep offset) r') ∨ x.run r = y.run r

namespace UpToLimit

variable {x y : Decode α}

protected theorem refl (x : Decode α) : UpToLimit x x := fun _ => .inr rfl

theorem ofExcept {x y : Except DecodeError α} (h : Protowire.UpToLimit x y) :
    UpToLimit (Decode.ofExcept x) (Decode.ofExcept y) := by
  intro r
  obtain ⟨offset, rfl⟩ | rfl := h
  · exact .inl ⟨offset, r, rfl⟩
  · exact .inr rfl

/-- **Sequences agree when their parts do.** -/
theorem bind {f g : α → Decode β} (h : UpToLimit x y) (hf : ∀ a, UpToLimit (f a) (g a)) :
    UpToLimit (x >>= f) (y >>= g) := by
  intro r
  obtain ⟨offset, r', hx⟩ | hx := h r
  · exact .inl ⟨offset, r', run_bind_of_error hx⟩
  · rw [EStateM.run_bind, EStateM.run_bind, hx]
    cases y.run r with
    | error e r' => exact .inr rfl
    | ok a r' => exact hf a r'

/-- Both computations look at the same offset. -/
theorem offset {F G : Nat → Decode α} (h : ∀ n, UpToLimit (F n) (G n)) :
    UpToLimit (get >>= fun r : Reader => F r.offset) (get >>= fun r : Reader => G r.offset) :=
  fun r => h r.offset r

/-- **Reading on to the end agrees when each step does.** -/
theorem untilEmpty {step step' : σ → Decode σ} (h : ∀ s, UpToLimit (step s) (step' s)) (s : σ) :
    UpToLimit (Reader.untilEmpty step s) (Reader.untilEmpty step' s) := by
  have repeated : ∀ fuel s, UpToLimit (Reader.repeatUpTo step fuel s)
      (Reader.repeatUpTo step' fuel s) := by
    intro fuel
    induction fuel with
    | zero => exact fun s => .refl (pure s)
    | succ fuel ih =>
      intro s r
      rw [Reader.run_repeatUpTo_succ, Reader.run_repeatUpTo_succ]
      split
      · exact .inr rfl
      · exact (h s).bind ih r
  exact fun r => repeated r.remaining s r

/-- Windows agree when what runs over them does. -/
theorem runWindow (h : UpToLimit x y) (r : Reader) :
    Protowire.UpToLimit (Reader.runWindow x r) (Reader.runWindow y r) := by
  rw [Reader.runWindow, Reader.runWindow]
  obtain ⟨offset, r', hx⟩ | hx := h r
  · rw [hx]
    exact .inl ⟨offset, rfl⟩
  · rw [hx]
    exact .refl _

end UpToLimit

end Decode

/-- A field is taken up alike when it is accepted and its payload is used alike. -/
theorem Reader.takeUp_upToLimit {α : Type} {accept accept' : Nat → Except DecodeError Unit}
    {use use' : Occurrence → Except DecodeError α} (wireType : WireType)
    (haccept : ∀ n, UpToLimit (accept n) (accept' n)) (huse : ∀ o, UpToLimit (use o) (use' o)) :
    Decode.UpToLimit (takeUp accept wireType use) (takeUp accept' wireType use') :=
  .offset
    (F := fun offset => do
      Decode.ofExcept (accept offset)
      Decode.ofExcept (use (← occurrence wireType)))
    (G := fun offset => do
      Decode.ofExcept (accept' offset)
      Decode.ofExcept (use' (← occurrence wireType))) fun offset =>
    (Decode.UpToLimit.ofExcept (haccept offset)).bind fun _ =>
      (Decode.UpToLimit.refl (occurrence wireType)).bind fun o => .ofExcept (huse o)

/-! ## Records -/

/-- **Enters no level that the other does not enter**, and reads there what the other reads. -/
inductive Below.UpToLimit : Below → Below → Prop where
  | none (below : Below) : UpToLimit none below
  | some {decode decode' : (t : MessageType) → Decode (Message t)}
      (h : ∀ t, (decode t).UpToLimit (decode' t)) : UpToLimit (some decode) (some decode')

variable {below below' : Below}

theorem Below.check_upToLimit (h : below.UpToLimit below') (offset : Nat) :
    Protowire.UpToLimit (below.check offset) (below'.check offset) := by
  cases h with
  | none below' => exact .inl ⟨offset, rfl⟩
  | some h => exact .refl (.ok ())

theorem Acceptance.upToLimit {accept : Below → Nat → Except DecodeError Unit}
    (h : Acceptance accept) (hbelow : below.UpToLimit below') (offset : Nat) :
    UpToLimit (accept below offset) (accept below' offset) := by
  cases h with
  | always => exact .refl (.ok ())
  | framed expected actual => exact .refl (expected.check actual)
  | nested expected actual =>
    exact .bind_right (expected.check actual) fun _ => Below.check_upToLimit hbelow offset

namespace Element

theorem read_upToLimit (h : below.UpToLimit below') (e : Element) (o : Occurrence) :
    UpToLimit (e.read below o) (e.read below' o) := by
  cases e with
  | scalar s => exact .refl (Item.scalar <$> s.ofOccurrence o)
  | message t =>
    cases h with
    | none below' => exact .inl ⟨o.offset, rfl⟩
    | some h =>
      simp only [read]
      cases o.payload with
      | delimited bytes => exact ((h t).runWindow (o.window bytes)).map Item.message
      | varint word => exact .refl _
      | fixed64 word => exact .refl _
      | fixed32 word => exact .refl _

theorem readMany_upToLimit (h : below.UpToLimit below') (e : Element) (o : Occurrence) :
    UpToLimit (e.readMany below o) (e.readMany below' o) := by
  cases e with
  | scalar s =>
    obtain ⟨offset, body, payload⟩ := o
    cases payload <;> exact .inr rfl
  | message t => exact (read_upToLimit h (.message t) o).map fun v => [v]

end Element

theorem Absorption.upToLimit {β : Type} {absorb : Below → Occurrence → Except DecodeError β}
    (h : Absorption absorb) (hbelow : below.UpToLimit below') (o : Occurrence) :
    UpToLimit (absorb below o) (absorb below' o) := by
  cases h with
  | dropped b => exact .refl (.ok b)
  | scalar s f => exact .refl (f <$> s.ofOccurrence o)
  | item e f => exact (Element.read_upToLimit hbelow e o).map f
  | items e f => exact (Element.readMany_upToLimit hbelow e o).map f
  | entry k v f => exact .refl (f <$> Entry.read none k (.scalar v) o)

namespace Record

variable {l : Layout}

/-- **Under a smaller limit a record takes up a field as under a larger one**, or refuses it. -/
theorem mergeField_upToLimit (h : below.UpToLimit below') (number : Nat) (wireType : WireType)
    (r : Record l) :
    (r.mergeField below number wireType).UpToLimit (r.mergeField below' number wireType) := by
  rw [mergeField_eq, mergeField_eq]
  exact Reader.takeUp_upToLimit wireType ((acceptance number wireType l).upToLimit h)
    ((r.absorption number).upToLimit h)

theorem mergeNext_upToLimit (h : below.UpToLimit below') (r : Record l) :
    (r.mergeNext below).UpToLimit (r.mergeNext below') :=
  (Decode.UpToLimit.refl Reader.tag).bind fun found => mergeField_upToLimit h found.1 found.2 r

theorem merge_upToLimit (h : below.UpToLimit below') (r : Record l) :
    (r.merge below).UpToLimit (r.merge below') :=
  .untilEmpty (mergeNext_upToLimit h) r

end Record

/-- **More levels to enter change no answer but a refusal**, on every level. -/
theorem Below.ofLevels_upToLimit : ∀ {levels levels' : Nat}, levels ≤ levels' →
    (ofLevels levels).UpToLimit (ofLevels levels')
  | 0, levels', _ => .none (ofLevels levels')
  | _ + 1, _ + 1, h => .some fun t =>
    Record.merge_upToLimit (ofLevels_upToLimit (Nat.le_of_succ_le_succ h)) (Record.empty t.layout)

namespace Message

variable {t : MessageType}

/-- **A larger nesting limit changes no answer but a refusal.**  Whatever the bytes, merging within
`levels` levels either finds an embedded payload too deep or gives what merging within any larger
number of levels gives: the same message, or the same fault in the same place. -/
theorem mergeWithin_of_le {levels levels' : Nat} (h : levels ≤ levels') (m : Message t)
    (bytes : Bytes) :
    (∃ offset, m.mergeWithin ⟨levels⟩ bytes = .error (.nestedTooDeep offset)) ∨
      m.mergeWithin ⟨levels⟩ bytes = m.mergeWithin ⟨levels'⟩ bytes :=
  (Record.merge_upToLimit (Below.ofLevels_upToLimit h) m).runWindow (Reader.ofBytes bytes)

/-- A message in a message, whose text is no UTF-8: with no level to enter the message inside is
refused, with one its text is, and a hundred levels change nothing of that. -/
theorem mergeWithin_of_le_bad_text :
    (Message.empty .nestedMessage).mergeWithin ⟨0⟩ [10, 3, 10, 1, 255]
        = .error (.nestedTooDeep 1) ∧
      1 ≤ 100 ∧
      (Message.empty .nestedMessage).mergeWithin ⟨1⟩ [10, 3, 10, 1, 255]
        = .error (.invalidUtf8 3) ∧
      (Message.empty .nestedMessage).mergeWithin ⟨100⟩ [10, 3, 10, 1, 255]
        = .error (.invalidUtf8 3) := by
  have hone : (Message.empty .nestedMessage).mergeWithin ⟨1⟩ [10, 3, 10, 1, 255]
      = .error (.invalidUtf8 3) := rfl
  refine ⟨rfl, by decide, hone, ?_⟩
  rcases mergeWithin_of_le (by decide : 1 ≤ 100) (Message.empty .nestedMessage)
    [10, 3, 10, 1, 255] with ⟨offset, hdeep⟩ | heq
  · exact absurd (hone.symm.trans hdeep) nofun
  · exact heq.symm.trans hone

end Message

end Protowire
