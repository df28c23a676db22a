import Protowire.Proofs.Message.Stages
import Protowire.Proofs.Steps
import Protowire.Proofs.Wire.Shift

/-!
# Proofs/Message/TakeUp — what every way to take up a field has in common

Whatever takes up one field — a scalar, a list, a message, a map entry, a whole record — comes to a
`Reader.takeUp`.  So all of them are local, take at least one byte, and are read alike further on.

There are three ways to accept a field (`Acceptance`) and five to use its payload (`Absorption`),
whatever the layout: what holds of each of them holds of every record (`Record.acceptance`,
`Record.absorption`).

`takeUp_shifts` moves such a step along; `Below.ofLevels_shifts` carries that through all levels
of embedded messages.
-/

namespace Protowire

/-- A map of a result that is a value comes from a value. -/
theorem map_eq_ok {ε α β : Type} {g : α → β} {x : Except ε α} {b : β} (h : g <$> x = .ok b) :
    ∃ a, x = .ok a ∧ g a = b := by
  cases x with
  | error e => exact absurd h nofun
  | ok a => exact ⟨a, rfl, Except.ok.inj h⟩

/-! ## One field -/

namespace Reader

variable {α : Type} {accept : Nat → Except DecodeError Unit} {wireType : WireType}
  {use : Occurrence → Except DecodeError α}

/-- What a field that is accepted comes to, when its payload has been read. -/
theorem run_takeUp_of_occurrence {r r' : Reader} {o : Occurrence}
    (haccept : accept r.offset = .ok ()) (ho : (occurrence wireType).run r = .ok o r') :
    (takeUp accept wireType use).run r = (Decode.ofExcept (use o)).run r' := by
  have hcheck : (Decode.ofExcept (accept r.offset)).run r = .ok () r := by rw [haccept]; rfl
  exact (Decode.run_bind_of_ok hcheck).trans (Decode.run_bind_of_ok ho)

/-- What it takes for a field to be taken up. -/
theorem run_takeUp_eq_ok {r r' : Reader} {a : α} :
    (takeUp accept wireType use).run r = .ok a r' ↔
      ∃ o, accept r.offset = .ok () ∧ (occurrence wireType).run r = .ok o r' ∧ use o = .ok a := by
  constructor
  · intro h
    obtain ⟨_, s, hget, hrest⟩ := Decode.run_bind_eq_ok.1 h
    obtain ⟨rfl, rfl⟩ : r = _ ∧ r = s := EStateM.Result.ok.inj hget
    obtain ⟨_, s, hcheck, hread⟩ := Decode.run_bind_eq_ok.1 hrest
    obtain ⟨haccept, rfl⟩ := Decode.run_ofExcept_eq_ok.1 hcheck
    obtain ⟨o, s, ho, hlast⟩ := Decode.run_bind_eq_ok.1 hread
    obtain ⟨huse, rfl⟩ := Decode.run_ofExcept_eq_ok.1 hlast
    exact ⟨o, haccept, ho, huse⟩
  · rintro ⟨o, haccept, ho, huse⟩
    rw [run_takeUp_of_occurrence haccept ho, huse]
    rfl

/-- A payload that is all there is taken up when it is accepted and something is made of it. -/
theorem runWindow_takeUp_eq_ok {r r' : Reader} {o : Occurrence} {a : α}
    (ho : (occurrence wireType).run r = .ok o r') :
    runWindow (takeUp accept wireType use) r = .ok a ↔
      accept r.offset = .ok () ∧ use o = .ok a := by
  rw [runWindow_eq_ok]
  constructor
  · rintro ⟨s, h⟩
    obtain ⟨o', haccept, ho', huse⟩ := run_takeUp_eq_ok.1 h
    obtain ⟨rfl, -⟩ := EStateM.Result.ok.inj (ho.symm.trans ho')
    exact ⟨haccept, huse⟩
  · rintro ⟨haccept, huse⟩
    exact ⟨r', run_takeUp_eq_ok.2 ⟨o, haccept, ho, huse⟩⟩

variable (accept wireType use)

theorem takeUp_local : Decode.Local (takeUp accept wireType use) :=
  .offset fun offset => (Decode.Local.ofExcept (accept offset)).bind fun _ =>
    (occurrence_local wireType).bind fun o => .ofExcept (use o)

theorem takeUp_consumes : Decode.Consumes (takeUp accept wireType use) :=
  .offset fun offset => Decode.Consumes.ofExcept_bind (x := accept offset) fun _ =>
    (occurrence_consumes wireType).bind fun o => .ofExcept (use o)

/-- **A field is taken up alike further on**, when what accepts it and what uses its payload move
their faults along. -/
theorem takeUp_shifts {k : Nat}
    (haccept : ∀ n, accept (n + k) = (accept n).mapError (·.shift k))
    (huse : ∀ o, use (o.shift k) = (use o).mapError (·.shift k)) :
    Decode.Shifts k id (takeUp accept wireType use) (takeUp accept wireType use) :=
  .offset (fun offset => do
      Decode.ofExcept (accept offset)
      Decode.ofExcept (use (← occurrence wireType))) fun offset =>
    (Decode.Shifts.ofExcept (haccept offset)).bind fun _ =>
      (occurrence_shifts k wireType).bind fun o => .ofExcept (huse o)

end Reader

/-! ## What takes up one field -/

theorem Scalar.read_local (s : Scalar) : Decode.Local s.read := by
  rw [s.read_eq]
  exact Reader.takeUp_local (fun _ => .ok ()) s.wireType s.ofOccurrence

theorem Scalar.read_consumes (s : Scalar) : Decode.Consumes s.read := by
  rw [s.read_eq]
  exact Reader.takeUp_consumes (fun _ => .ok ()) s.wireType s.ofOccurrence

theorem Scalar.merge_local (s : Scalar) (wireType : WireType) :
    Decode.Local (s.merge wireType) :=
  (Decode.Local.ofExcept (s.wireType.check wireType)).bind fun _ => s.read_local

theorem Item.merge_local (below : Below) (e : Element) (wireType : WireType) :
    Decode.Local (Item.merge below e wireType) := by
  rw [Item.merge_eq]
  exact Reader.takeUp_local (e.accept below wireType) wireType (e.read below)

namespace Entry

variable {k : Scalar} {e : Element}

/-- Takes up one field of an entry whose tag has been read. -/
def mergeField (below : Below) (number : Nat) (wireType : WireType) (entry : Entry k e) :
    Decode (Entry k e) :=
  if number = 1 then do
    return { entry with key := ← k.merge wireType }
  else if number = 2 then do
    return { entry with value := ← Item.merge below e wireType }
  else do
    Reader.skip wireType
    return entry

theorem mergeNext_eq (below : Below) (entry : Entry k e) :
    entry.mergeNext below = Reader.tag >>= fun found => entry.mergeField below found.1 found.2 :=
  rfl

theorem mergeField_local (below : Below) (number : Nat) (wireType : WireType)
    (entry : Entry k e) : Decode.Local (entry.mergeField below number wireType) := by
  rw [mergeField]
  split
  · exact (k.merge_local wireType).bind fun key => .pure { entry with key }
  · split
    · exact (Item.merge_local below e wireType).bind fun value => .pure { entry with value }
    · exact (Reader.skip_local wireType).bind fun _ => .pure entry

theorem mergeNext_local (below : Below) (entry : Entry k e) :
    Decode.Local (entry.mergeNext below) := by
  rw [mergeNext_eq]
  exact Reader.tag_local.bind fun found => mergeField_local below found.1 found.2 entry

theorem mergeNext_consumes (below : Below) (entry : Entry k e) :
    Decode.Consumes (entry.mergeNext below) := by
  rw [mergeNext_eq]
  exact Reader.tag_consumes.bind fun found => mergeField_local below found.1 found.2 entry

end Entry

namespace Record

variable {l : Layout}

/-- A record takes up a payload that is all there when it accepts the field and absorbs it. -/
theorem runWindow_mergeField_eq_ok {below : Below} {number : Nat} {wireType : WireType}
    {m m' : Record l} {r r' : Reader} {o : Occurrence}
    (ho : (Reader.occurrence wireType).run r = .ok o r') :
    Reader.runWindow (m.mergeField below number wireType) r = .ok m' ↔
      accept below number wireType r.offset l = .ok () ∧ m.absorb below number o = .ok m' := by
  rw [mergeField_eq]
  exact Reader.runWindow_takeUp_eq_ok ho

theorem mergeField_local (below : Below) (number : Nat) (wireType : WireType) (r : Record l) :
    Decode.Local (r.mergeField below number wireType) := by
  rw [mergeField_eq]
  exact Reader.takeUp_local (fun offset => accept below number wireType offset l) wireType
    (r.absorb below number)

theorem mergeNext_local (below : Below) (r : Record l) : Decode.Local (r.mergeNext below) :=
  Reader.tag_local.bind fun found => mergeField_local below found.1 found.2 r

theorem mergeNext_consumes (below : Below) (r : Record l) : Decode.Consumes (r.mergeNext below) :=
  Reader.tag_consumes.bind fun found => mergeField_local below found.1 found.2 r

end Record

/-! ## What is asked of a field, and what is made of its payload -/

/-- **A field is accepted by its framing, and perhaps by the levels that are left.** -/
inductive Acceptance : (Below → Nat → Except DecodeError Unit) → Prop where
  | always : Acceptance fun _ _ => .ok ()
  | framed (expected actual : WireType) : Acceptance fun _ _ => expected.check actual
  | nested (expected actual : WireType) :
      Acceptance fun below offset => expected.check actual >>= fun _ => below.check offset

namespace Element

variable (e : Element) (wireType : WireType)

theorem acceptance : Acceptance fun below offset => e.accept below wireType offset := by
  cases e with
  | scalar s =>
    have hframed : (fun below offset => accept below (.scalar s) wireType offset)
        = fun _ _ => s.wireType.check wireType := by
      funext below offset
      simp only [accept, Element.wireType]
      cases s.wireType.check wireType <;> rfl
    rw [hframed]
    exact .framed s.wireType wireType
  | message t => exact .nested .lengthDelimited wireType

theorem acceptanceMany : Acceptance fun below offset => e.acceptMany below wireType offset := by
  cases e with
  | scalar s =>
    by_cases hpacked : s.isPackable ∧ wireType = .lengthDelimited
    · simp only [acceptMany, if_pos hpacked]
      exact .always
    · simp only [acceptMany, if_neg hpacked]
      exact .framed s.wireType wireType
  | message t => exact acceptance (.message t) wireType

end Element

theorem Slot.acceptance (slot : Slot) (number : Nat) (wireType : WireType) :
    Acceptance fun below offset => slot.accept below number wireType offset := by
  cases slot with
  | field name number' shape =>
    cases shape with
    | plain s => exact .framed s.wireType wireType
    | optional e => exact e.acceptance wireType
    | repeated e packed => exact e.acceptanceMany wireType
    | map key value => exact .nested .lengthDelimited wireType
  | oneof name members =>
    cases hm : Member.find? number members with
    | none =>
      simp only [accept, hm]
      exact .always
    | some m =>
      simp only [accept, hm]
      exact m.1.element.acceptance wireType

/-- A record accepts a field as one of its slots does, or always. -/
theorem Record.acceptance (number : Nat) (wireType : WireType) (l : Layout) :
    Acceptance fun below offset => accept below number wireType offset l := by
  induction l with
  | nil => exact .always
  | cons slot l ih =>
    cases hhas : slot.has number with
    | true =>
      simp only [accept, hhas]
      exact slot.acceptance number wireType
    | false =>
      simp only [accept, hhas]
      exact ih

/-- **What is made of a payload**: nothing, or what a field of some kind makes of it. -/
inductive Absorption {β : Type} : (Below → Occurrence → Except DecodeError β) → Prop where
  | dropped (b : β) : Absorption fun _ _ => .ok b
  | scalar (s : Scalar) (f : s.Value → β) : Absorption fun _ o => f <$> s.ofOccurrence o
  | item (e : Element) (f : Item e → β) : Absorption fun below o => f <$> e.read below o
  | items (e : Element) (f : List (Item e) → β) : Absorption fun below o => f <$> e.readMany below o
  | entry (k v : Scalar) (f : Entry k (.scalar v) → β) :
      Absorption fun _ o => f <$> Entry.read none k (.scalar v) o

theorem Absorption.map {β γ : Type} {absorb : Below → Occurrence → Except DecodeError β}
    (h : Absorption absorb) (g : β → γ) : Absorption fun below o => g <$> absorb below o := by
  cases h with
  | dropped b => exact .dropped (g b)
  | scalar s f => simpa only [Functor.map_map] using .scalar s fun v => g (f v)
  | item e f => simpa only [Functor.map_map] using .item e fun v => g (f v)
  | items e f => simpa only [Functor.map_map] using .items e fun vs => g (f vs)
  | entry k v f => simpa only [Functor.map_map] using .entry k v fun entry => g (f entry)

theorem Content.absorption (number : Nat) {slot : Slot} (c : Content slot) :
    Absorption fun below o => c.absorb below number o := by
  cases c with
  | plain v => exact .scalar _ plain
  | absent | present v => exact .item _ present
  | repeated vs => exact .items _ _
  | map entries => exact .entry _ _ _
  | @unset _ members | @chosen _ members _ _ _ =>
    cases hm : Member.find? number members with
    | none =>
      simp only [absorb, hm]
      exact .dropped _
    | some m =>
      simp only [absorb, hm]
      exact .item _ _

/-- A record absorbs a payload as one of its slots does, or drops it. -/
theorem Record.absorption (number : Nat) :
    ∀ {l : Layout} (r : Record l), Absorption fun below o => r.absorb below number o
  | _, .nil => by
    simp only [absorb]
    exact .dropped nil
  | slot :: _, .cons c rest => by
    cases hhas : slot.has number with
    | true =>
      simp only [absorb, hhas]
      exact (c.absorption number).map _
    | false =>
      simp only [absorb, hhas]
      exact (absorption number rest).map _

/-! ## Moving faults along -/

section Shift

variable {k : Nat}

/-- A wire type mismatch has no place. -/
theorem WireType.mapError_check (expected actual : WireType) :
    (expected.check actual).mapError (·.shift k) = expected.check actual := by
  unfold WireType.check
  split <;> rfl

theorem Below.check_add (below : Below) (offset : Nat) :
    below.check (offset + k) = (below.check offset).mapError (·.shift k) := by
  unfold Below.check
  split <;> rfl

/-- A field is accepted alike further on. -/
theorem Acceptance.add {accept : Below → Nat → Except DecodeError Unit} (h : Acceptance accept)
    (below : Below) (offset : Nat) :
    accept below (offset + k) = (accept below offset).mapError (·.shift k) := by
  cases h with
  | always => rfl
  | framed expected actual => exact (WireType.mapError_check expected actual).symm
  | nested expected actual =>
    dsimp only
    rw [mapError_bind, WireType.mapError_check]
    simp only [Below.check_add]

/-- The value a scalar payload stands for does not depend on where it is. -/
theorem Scalar.ofOccurrence_shift (s : Scalar) (o : Occurrence) :
    s.ofOccurrence (o.shift k) = (s.ofOccurrence o).mapError (·.shift k) := by
  obtain ⟨offset, body, payload⟩ := o
  cases payload with
  | varint word => simp only [ofOccurrence, Occurrence.shift]; cases s.ofVarint? word <;> rfl
  | fixed64 word => simp only [ofOccurrence, Occurrence.shift]; cases s.ofFixed64? word <;> rfl
  | fixed32 word => simp only [ofOccurrence, Occurrence.shift]; cases s.ofFixed32? word <;> rfl
  | delimited bytes =>
    simp only [ofOccurrence, Occurrence.shift]
    split
    · rfl
    · cases Bytes.toString? bytes <;> rfl
    · rfl

theorem Scalar.read_shifts (s : Scalar) : Decode.Shifts k id s.read s.read := by
  rw [s.read_eq]
  exact Reader.takeUp_shifts (fun _ => .ok ()) s.wireType s.ofOccurrence (fun _ => rfl)
    s.ofOccurrence_shift

theorem Scalar.merge_shifts (s : Scalar) (wireType : WireType) :
    Decode.Shifts k id (s.merge wireType) (s.merge wireType) :=
  (Decode.Shifts.ofExcept (WireType.mapError_check s.wireType wireType).symm).bind fun _ =>
    s.read_shifts

theorem Scalar.readPacked_shifts (s : Scalar) : Decode.Shifts k id s.readPacked s.readPacked :=
  .untilEmpty (fun vs => s.read_shifts.bind fun v => .pure id (vs ++ [v])) []

/-- The decoders for embedded messages move their faults along. -/
def Below.Shifts (k : Nat) (below : Below) : Prop :=
  ∀ decode, below = some decode → ∀ t, Decode.Shifts k id (decode t) (decode t)

variable {below : Below}

theorem Element.read_shift (h : below.Shifts k) (e : Element) (o : Occurrence) :
    e.read below (o.shift k) = (e.read below o).mapError (·.shift k) := by
  cases e with
  | scalar s =>
    simp only [Element.read]
    rw [mapError_map, Scalar.ofOccurrence_shift]
  | message t =>
    obtain ⟨offset, body, payload⟩ := o
    cases below with
    | none => rfl
    | some decode =>
      cases payload with
      | delimited bytes =>
        have := (h decode rfl t).runWindow (Reader.IsShift.window k body bytes)
        simp only [Element.read, Occurrence.shift, Occurrence.window]
        rw [mapError_map, this]
      | varint word => rfl
      | fixed64 word => rfl
      | fixed32 word => rfl

theorem Element.readMany_shift (h : below.Shifts k) (e : Element) (o : Occurrence) :
    e.readMany below (o.shift k) = (e.readMany below o).mapError (·.shift k) := by
  have single : ∀ e : Element, (fun v => [v]) <$> e.read below (o.shift k)
      = ((fun v => [v]) <$> e.read below o).mapError (·.shift k) := fun e => by
    rw [mapError_map, Element.read_shift h]
  cases e with
  | message t => exact single (.message t)
  | scalar s =>
    obtain ⟨offset, body, payload⟩ := o
    cases payload with
    | varint word => exact single (.scalar s)
    | fixed64 word => exact single (.scalar s)
    | fixed32 word => exact single (.scalar s)
    | delimited bytes =>
      simp only [Element.readMany, Occurrence.shift]
      split
      · have := (s.readPacked_shifts (k := k)).runWindow (Reader.IsShift.window k body bytes)
        simp only [Occurrence.window]
        rw [mapError_map, this]
      · exact single (.scalar s)

theorem Item.merge_shifts (h : below.Shifts k) (e : Element) (wireType : WireType) :
    Decode.Shifts k id (Item.merge below e wireType) (Item.merge below e wireType) := by
  rw [Item.merge_eq]
  exact Reader.takeUp_shifts (e.accept below wireType) wireType (e.read below)
    ((e.acceptance wireType).add below) (Element.read_shift h e)

namespace Entry

variable {key : Scalar} {e : Element}

theorem mergeField_shifts (h : below.Shifts k) (number : Nat) (wireType : WireType)
    (entry : Entry key e) :
    Decode.Shifts k id (entry.mergeField below number wireType)
      (entry.mergeField below number wireType) := by
  rw [mergeField]
  split
  · exact (key.merge_shifts wireType).bind fun v => .pure id { entry with key := v }
  · split
    · exact (Item.merge_shifts h e wireType).bind fun v => .pure id { entry with value := v }
    · exact (Reader.skip_shifts k wireType).bind fun _ => .pure id entry

theorem mergeNext_shifts (h : below.Shifts k) (entry : Entry key e) :
    Decode.Shifts k id (entry.mergeNext below) (entry.mergeNext below) :=
  (Reader.tag_shifts k).bind fun found => mergeField_shifts h found.1 found.2 entry

theorem read_shift (h : below.Shifts k) (o : Occurrence) :
    Entry.read below key e (o.shift k) = (Entry.read below key e o).mapError (·.shift k) := by
  obtain ⟨offset, body, payload⟩ := o
  cases payload with
  | delimited bytes =>
    exact (Decode.Shifts.untilEmpty (mergeNext_shifts h) (empty key e)).runWindow
      (Reader.IsShift.window k body bytes)
  | varint word => rfl
  | fixed64 word => rfl
  | fixed32 word => rfl

end Entry

/-- With no level left there is nothing to move. -/
theorem Below.shifts_none : Below.Shifts k none := nofun

/-- A payload is used alike further on. -/
theorem Absorption.shift {β : Type} {absorb : Below → Occurrence → Except DecodeError β}
    (h : Absorption absorb) (hbelow : below.Shifts k) (o : Occurrence) :
    absorb below (o.shift k) = (absorb below o).mapError (·.shift k) := by
  cases h <;> dsimp only
  case dropped b => rfl
  case scalar s f => rw [mapError_map, Scalar.ofOccurrence_shift]
  case item e f => rw [mapError_map, Element.read_shift hbelow]
  case items e f => rw [mapError_map, Element.readMany_shift hbelow]
  case entry k v f => rw [mapError_map, Entry.read_shift Below.shifts_none]

namespace Record

variable {l : Layout}

theorem mergeField_shifts (h : below.Shifts k) (number : Nat) (wireType : WireType)
    (r : Record l) :
    Decode.Shifts k id (r.mergeField below number wireType)
      (r.mergeField below number wireType) := by
  rw [mergeField_eq]
  exact Reader.takeUp_shifts (fun offset => accept below number wireType offset l) wireType
    (r.absorb below number) ((acceptance number wireType l).add below)
    ((r.absorption number).shift h)

theorem mergeNext_shifts (h : below.Shifts k) (r : Record l) :
    Decode.Shifts k id (r.mergeNext below) (r.mergeNext below) :=
  (Reader.tag_shifts k).bind fun found => mergeField_shifts h found.1 found.2 r

theorem merge_shifts (h : below.Shifts k) (r : Record l) :
    Decode.Shifts k id (r.merge below) (r.merge below) :=
  .untilEmpty (mergeNext_shifts h) r

end Record

/-- **Embedded messages are read alike further on**, however many levels may be entered. -/
theorem Below.ofLevels_shifts (k levels : Nat) : (Below.ofLevels levels).Shifts k := by
  induction levels with
  | zero => exact Below.shifts_none
  | succ levels ih =>
    intro decode hdecode t
    obtain rfl := Option.some.inj hdecode
    exact Record.merge_shifts ih (Record.empty t.layout)

theorem Budget.below_shifts (k : Nat) (budget : Budget) : budget.below.Shifts k :=
  Below.ofLevels_shifts k budget.levels

end Shift

end Protowire
