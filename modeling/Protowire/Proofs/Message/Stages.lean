import Protowire.Message.Merge
import Protowire.Proofs.Wire.Scalar

/-!
# Proofs/Message/Stages — taking up a field, in three stages

Each slot reads its fields in its own way.  All of these ways come to the same three stages
(`Reader.takeUp`): the field is **accepted** (its framing is the one its slot expects, and an
embedded payload is not too deep), its payload is **read** as its framing says, and the content of
its slot **absorbs** the payload.  A field that belongs to no slot is accepted whatever it is, and
its payload is dropped.

`accept`, `read` and `absorb` say what the stages are for each kind of element, slot and record, and
`Scalar.merge_eq`, `Item.merge_eq`, `Item.mergeMany_eq`, `Entry.merge_eq`, `Content.mergeField_eq`
and `Record.mergeField_eq` that the readers are these stages.
-/

namespace Protowire

/-! ## The stages -/

namespace Element

/-- Accepts a field that holds one value. -/
def accept (below : Below) (e : Element) (wireType : WireType) (offset : Nat) :
    Except DecodeError Unit := do
  e.wireType.check wireType
  match e with
  | .scalar _ => return ()
  | .message _ => below.check offset

/-- Accepts a field that adds to a list.  A list of numbers may also come packed. -/
def acceptMany (below : Below) (e : Element) (wireType : WireType) (offset : Nat) :
    Except DecodeError Unit :=
  match e with
  | .scalar s =>
    if s.isPackable ∧ wireType = .lengthDelimited then .ok () else s.wireType.check wireType
  | .message _ => e.accept below wireType offset

/-- The value a payload stands for. -/
def read (below : Below) : (e : Element) → Occurrence → Except DecodeError (Item e)
  | .scalar s, o => Item.scalar <$> s.ofOccurrence o
  | .message t, o =>
    match below, o.payload with
    | none, _ => .error (.nestedTooDeep o.offset)
    | some decode, .delimited bytes => Item.message <$> Reader.runWindow (decode t) (o.window bytes)
    | some _, payload => .error (.wireTypeMismatch .lengthDelimited payload.wireType)

/-- The values a payload adds to a list. -/
def readMany (below : Below) (e : Element) (o : Occurrence) : Except DecodeError (List (Item e)) :=
  match e, o.payload with
  | .scalar s, .delimited bytes =>
    if s.isPackable then
      (fun vs => vs.map Item.scalar) <$> Reader.runWindow s.readPacked (o.window bytes)
    else (fun v => [v]) <$> Element.read below (.scalar s) o
  | e, _ => (fun v => [v]) <$> e.read below o

end Element

namespace Entry

variable {e : Element}

/-- The entry a payload stands for; `below` is for the value. -/
def read (below : Below) (k : Scalar) (e : Element) (o : Occurrence) :
    Except DecodeError (Entry k e) :=
  match o.payload with
  | .delimited bytes =>
    Reader.runWindow (Reader.untilEmpty (mergeNext below) (empty k e)) (o.window bytes)
  | payload => .error (.wireTypeMismatch .lengthDelimited payload.wireType)

/-- Accepts a map entry, which takes a level of its own. -/
def accept (below : Below) (wireType : WireType) (offset : Nat) : Except DecodeError Unit := do
  WireType.lengthDelimited.check wireType
  below.check offset

end Entry

/-- Accepts a field of the given shape. -/
def Shape.accept (below : Below) (shape : Shape) (wireType : WireType) (offset : Nat) :
    Except DecodeError Unit :=
  match shape with
  | plain s => s.wireType.check wireType
  | optional e => e.accept below wireType offset
  | repeated e _ => e.acceptMany below wireType offset
  | map _ _ => Entry.accept below wireType offset

/-- Accepts a field that belongs to the slot. -/
def Slot.accept (below : Below) (slot : Slot) (number : Nat) (wireType : WireType) (offset : Nat) :
    Except DecodeError Unit :=
  match slot with
  | field _ _ shape => shape.accept below wireType offset
  | oneof _ members =>
    match Member.find? number members with
    | some m => m.1.element.accept below wireType offset
    | none => .ok ()

/-- The content of a slot after a payload for it. -/
def Content.absorb (below : Below) (number : Nat) (o : Occurrence) :
    {slot : Slot} → Content slot → Except DecodeError (Content slot)
  | .field _ _ (.plain s), _ => Content.plain <$> s.ofOccurrence o
  | .field _ _ (.optional e), _ => Content.present <$> e.read below o
  | .field _ _ (.repeated e _), .repeated vs =>
    (fun new => Content.repeated (vs.append (Items.ofList new))) <$> e.readMany below o
  | .field _ _ (.map k v), .map entries =>
    (fun entry => Content.map (entries.insert entry.key entry.value.scalarValue)) <$>
      Entry.read none k (.scalar v) o
  | .oneof _ members, c =>
    match Member.find? number members with
    | some m => Content.chosen m.1 m.2 <$> m.1.element.read below o
    | none => .ok c

namespace Record

/-- Accepts a field: as its slot says, or always if it belongs to none. -/
def accept (below : Below) (number : Nat) (wireType : WireType) (offset : Nat) :
    Layout → Except DecodeError Unit
  | [] => .ok ()
  | slot :: l =>
    if slot.has number then slot.accept below number wireType offset
    else accept below number wireType offset l

/-- The record after a payload for the field of the given number. -/
def absorb (below : Below) (number : Nat) (o : Occurrence) :
    {l : Layout} → Record l → Except DecodeError (Record l)
  | _, .nil => .ok .nil
  | slot :: _, .cons c rest =>
    if slot.has number then (fun c => Record.cons c rest) <$> c.absorb below number o
    else Record.cons c <$> rest.absorb below number o

end Record

/-! ## Putting the stages together -/

/-- A framing is the expected one if it is that one. -/
@[simp] theorem WireType.check_self (w : WireType) : w.check w = .ok () := if_pos rfl

/-- A framing that is accepted is the expected one. -/
theorem WireType.eq_of_check_eq_ok {expected actual : WireType} {u : Unit}
    (h : expected.check actual = .ok u) : expected = actual := by
  by_contra hne
  rw [check, if_neg hne] at h
  exact absurd h nofun

namespace Decode

variable {α β : Type}

/-- What follows a finished result matters only for its value. -/
theorem ofExcept_bind_congr {x : Except DecodeError α} {f g : α → Decode β}
    (h : ∀ a, x = .ok a → f a = g a) : ofExcept x >>= f = ofExcept x >>= g := by
  cases x with
  | error e => rfl
  | ok a => exact h a rfl

theorem map_ofExcept (g : α → β) (x : Except DecodeError α) :
    g <$> ofExcept x = ofExcept (g <$> x) := by
  cases x <;> rfl

/-- Checks that are made one after the other are one check. -/
theorem ofExcept_bind_ofExcept (x : Except DecodeError α) (f : α → Except DecodeError β) :
    (ofExcept x >>= fun a => ofExcept (f a)) = ofExcept (x >>= f) := by
  cases x <;> rfl

end Decode

namespace Reader

open Decode

variable {α β : Type}

/-- Accepts a field, reads its payload and makes use of it. -/
def takeUp (accept : Nat → Except DecodeError Unit) (wireType : WireType)
    (use : Occurrence → Except DecodeError α) : Decode α := do
  Decode.ofExcept (accept (← get).offset)
  Decode.ofExcept (use (← occurrence wireType))

variable {accept : Nat → Except DecodeError Unit} {wireType expected : WireType}
  {use : Occurrence → Except DecodeError α}

/-- What is made of the value may be made of it where the payload is used. -/
theorem map_takeUp (g : α → β) (accept : Nat → Except DecodeError Unit) (wireType : WireType)
    (use : Occurrence → Except DecodeError α) :
    g <$> takeUp accept wireType use = takeUp accept wireType fun o => g <$> use o := by
  simp only [takeUp, map_bind, map_ofExcept]

/-- **A field whose framing was checked is taken up** by reading what that framing holds. -/
theorem check_bind_eq_takeUp {x : Decode α}
    (hx : x = takeUp accept expected use) :
    (Decode.ofExcept (expected.check wireType) >>= fun _ => x)
      = takeUp (fun offset => expected.check wireType >>= fun _ => accept offset) wireType use := by
  have hlook : (Decode.ofExcept (expected.check wireType) >>= fun _ => x)
      = get >>= fun r : Reader => Decode.ofExcept (expected.check wireType) >>= fun _ =>
          Decode.ofExcept (accept r.offset) >>= fun _ =>
            occurrence expected >>= fun o => Decode.ofExcept (use o) := by
    rw [hx]
    cases expected.check wireType <;> rfl
  rw [hlook, takeUp]
  refine bind_congr fun r => ?_
  rw [← ofExcept_bind_ofExcept, bind_assoc]
  refine ofExcept_bind_congr fun _ hcheck => ?_
  rw [WireType.eq_of_check_eq_ok hcheck]

/-- What follows a payload matters only for payloads of its framing. -/
theorem occurrence_bind_congr {f g : Occurrence → Decode α}
    (h : ∀ o, o.payload.wireType = wireType → f o = g o) :
    occurrence wireType >>= f = occurrence wireType >>= g := by
  cases wireType <;> simp only [occurrence, bind_assoc, pure_bind] <;>
    exact bind_congr fun r => bind_congr fun _ => h _ rfl

/-- Two ways to take up a field are the same if they accept alike and use alike the payloads of its
framing. -/
theorem takeUp_congr {accept' : Nat → Except DecodeError Unit}
    {use' : Occurrence → Except DecodeError α} (haccept : ∀ offset, accept offset = accept' offset)
    (huse : ∀ o, o.payload.wireType = wireType → use o = use' o) :
    takeUp accept wireType use = takeUp accept' wireType use' := by
  obtain rfl : accept = accept' := funext haccept
  exact bind_congr fun _ => bind_congr fun _ => occurrence_bind_congr fun o ho => by rw [huse o ho]

/-- **A delimited payload is taken up** by entering it. -/
theorem takeUp_lengthDelimited {f : Reader → Except DecodeError α}
    (huse : ∀ offset start bytes, use ⟨offset, start, .delimited bytes⟩ = f (window start bytes)) :
    takeUp accept .lengthDelimited use
      = get >>= fun r : Reader => Decode.ofExcept (accept r.offset) >>= fun _ =>
          enter >>= fun inner => Decode.ofExcept (f inner) := by
  simp only [takeUp, occurrence, enter, bind_assoc, pure_bind, get_bind_const, huse]
  rfl

/-- A field that is dropped is accepted always, and nothing is made of it. -/
theorem takeUp_dropped (a : α) :
    takeUp (fun _ => .ok ()) wireType (fun _ => .ok a) = skip wireType >>= fun _ => pure a := by
  rw [skip_eq, bind_assoc]
  rfl

end Reader

/-! ## The readers are the stages -/

open Reader

namespace Scalar

variable (s : Scalar)

/-- A text is read by reading its bytes, which then must be UTF-8. -/
theorem read_string_eq : read .string = get >>= fun r : Reader => delimited >>= fun bytes =>
    Decode.ofExcept (bytes.toString?.elim (.error (.invalidUtf8 r.offset)) .ok) := by
  refine bind_congr fun r => bind_congr fun bytes => ?_
  cases bytes.toString? <;> rfl

/-- **A value is read by reading the payload its kind asks for.** -/
theorem read_eq : s.read = takeUp (fun _ => .ok ()) s.wireType s.ofOccurrence := by
  cases s with
  | string =>
    rw [read_string_eq]
    simp only [takeUp, occurrence, wireType, ofOccurrence, delimited, enter, bind_assoc, pure_bind,
      get_bind_const]
    rfl
  | bytes =>
    simp only [read, takeUp, occurrence, wireType, ofOccurrence, delimited, enter, window,
      Decode.ofExcept, bind_assoc, pure_bind, bind_pure, get_bind_const]
  | _ =>
    simp only [read, takeUp, occurrence, wireType, ofOccurrence, ofVarint?, ofFixed32?, ofFixed64?,
      Option.elim_some, Decode.ofExcept, bind_assoc, pure_bind, bind_pure, get_bind_const]

/-- **A field that holds a scalar is read in the three stages.** -/
theorem merge_eq (wireType : WireType) :
    s.merge wireType = takeUp (fun _ => s.wireType.check wireType) wireType s.ofOccurrence := by
  rw [merge, check_bind_eq_takeUp s.read_eq]
  refine takeUp_congr (fun _ => ?_) fun _ _ => rfl
  cases s.wireType.check wireType <;> rfl

end Scalar

/-- A scalar is accepted if its framing is the expected one. -/
theorem Element.accept_scalar_eq (below : Below) (s : Scalar) (wireType : WireType) (offset : Nat) :
    accept below (.scalar s) wireType offset = s.wireType.check wireType := by
  simp only [accept, Element.wireType]
  cases s.wireType.check wireType <;> rfl

namespace Item

variable (below : Below)

/-- **A field that holds one value is read in the three stages.** -/
theorem merge_eq (e : Element) (wireType : WireType) :
    merge below e wireType = takeUp (e.accept below wireType) wireType (e.read below) := by
  cases e with
  | scalar s =>
    rw [merge, bind_pure_comp, Scalar.merge_eq, map_takeUp]
    exact takeUp_congr (fun offset => (Element.accept_scalar_eq below s wireType offset).symm)
      fun _ _ => rfl
  | message t =>
    cases below with
    | none =>
      rw [merge]
      exact check_bind_eq_takeUp rfl
    | some decode =>
      rw [merge]
      refine check_bind_eq_takeUp ?_
      rw [takeUp_lengthDelimited (f := fun inner => Item.message <$> runWindow (decode t) inner)
        fun _ _ _ => rfl]
      simp only [← Decode.map_ofExcept, bind_pure_comp]
      rfl

/-- **A field that adds to a list is read in the three stages.** -/
theorem mergeMany_eq (e : Element) (wireType : WireType) :
    mergeMany below e wireType
      = takeUp (e.acceptMany below wireType) wireType (e.readMany below) := by
  cases e with
  | message t =>
    rw [mergeMany, bind_pure_comp, merge_eq, map_takeUp]
    rfl
  | scalar s =>
    rw [mergeMany]
    by_cases hpacked : s.isPackable ∧ wireType = .lengthDelimited
    · obtain ⟨hpack, rfl⟩ := id hpacked
      have huse : ∀ offset start bytes,
          Element.readMany below (.scalar s) ⟨offset, start, .delimited bytes⟩
            = (fun vs => vs.map Item.scalar) <$> runWindow s.readPacked (window start bytes) :=
        fun _ _ _ => if_pos hpack
      have haccept : Element.acceptMany below (.scalar s) .lengthDelimited = fun _ => .ok () :=
        funext fun _ => if_pos hpacked
      rw [if_pos hpacked, haccept, takeUp_lengthDelimited
        (f := fun inner => (fun vs => vs.map Item.scalar) <$> runWindow s.readPacked inner) huse]
      simp only [← Decode.map_ofExcept, bind_pure_comp]
      rfl
    · rw [if_neg hpacked, bind_pure_comp, merge_eq, map_takeUp]
      refine takeUp_congr (fun offset => ?_) fun o ho => ?_
      · rw [Element.accept_scalar_eq, Element.acceptMany, if_neg hpacked]
      · obtain ⟨offset, body, payload⟩ := o
        cases payload with
        | delimited bytes =>
          have hpack : ¬ s.isPackable = true := fun h => hpacked ⟨h, ho.symm⟩
          exact (if_neg hpack).symm
        | varint word | fixed64 word | fixed32 word => rfl

end Item

/-- **A map entry is read in the three stages.** -/
theorem Entry.mergeWith_eq (below inner : Below) (k : Scalar) (e : Element) (wireType : WireType) :
    mergeWith below inner k e wireType
      = takeUp (Entry.accept below wireType) wireType (Entry.read inner k e) :=
  check_bind_eq_takeUp (takeUp_lengthDelimited fun _ _ _ => rfl).symm

theorem Entry.merge_eq (budget : Budget) (k : Scalar) (e : Element) (wireType : WireType) :
    Entry.merge budget k e wireType
      = takeUp (Entry.accept budget.below wireType) wireType
          (Entry.read budget.enter.below k e) :=
  mergeWith_eq budget.below budget.enter.below k e wireType

section

variable (below : Below) (number : Nat) (wireType : WireType)

/-- **A slot takes up a field in the three stages.** -/
theorem Content.mergeField_eq {slot : Slot} (c : Content slot) :
    c.mergeField below number wireType
      = takeUp (slot.accept below number wireType) wireType (c.absorb below number) := by
  cases c with
  | plain v =>
    rw [mergeField, bind_pure_comp, Scalar.merge_eq, map_takeUp]
    rfl
  | absent | present v =>
    rw [mergeField, bind_pure_comp, Item.merge_eq, map_takeUp]
    rfl
  | repeated vs =>
    rw [mergeField, bind_pure_comp, Item.mergeMany_eq, map_takeUp]
    rfl
  | map entries =>
    rw [mergeField, bind_pure_comp, Entry.mergeWith_eq, map_takeUp]
    rfl
  | @unset _ members | @chosen _ members _ _ _ =>
    cases hm : Member.find? number members with
    | none =>
      simp only [mergeField, absorb, hm]
      rw [← takeUp_dropped]
      exact takeUp_congr (fun _ => by rw [Slot.accept, hm]) fun _ _ => rfl
    | some m =>
      simp only [mergeField, absorb, hm, bind_pure_comp, Item.merge_eq, map_takeUp]
      exact takeUp_congr (fun _ => by rw [Slot.accept, hm]) fun _ _ => rfl

/-- **A record takes up a field in the three stages.** -/
theorem Record.mergeField_eq : ∀ {l : Layout} (r : Record l),
    r.mergeField below number wireType
      = takeUp (fun offset => Record.accept below number wireType offset l) wireType
          (r.absorb below number)
  | _, .nil => by
    rw [mergeField, ← takeUp_dropped]
    rfl
  | slot :: _, .cons c rest => by
    rw [mergeField]
    cases hhas : slot.has number with
    | true =>
      simp only [accept, absorb, hhas, if_true, bind_pure_comp, Content.mergeField_eq, map_takeUp]
    | false =>
      simp only [accept, absorb, hhas, Bool.false_eq_true, if_false, bind_pure_comp,
        mergeField_eq rest, map_takeUp]

end

end Protowire
