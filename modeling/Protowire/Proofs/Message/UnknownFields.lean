import Protowire.Message.Encode
import Protowire.Proofs.Message.Framing
import Protowire.Proofs.Message.Slots

/-!
# Proofs/Message/UnknownFields — a field that is not declared makes no difference, on any level

A payload may itself be made of fields: those of a message, or those of a map entry (`Body`).  One
input **pads** another (`Pads`) when it has one field more, under a number that is not declared:
between its own fields, or between those of a payload inside, whose length then is another one.

Taking up the additional field changes nothing, and two fields have the same effect when their
payloads are read alike.  So by induction on the levels around the additional field both inputs
lead to the same.
-/

namespace Protowire

open Reader

/-! ## Results that differ in faults only -/

/-- The same value, or a fault on either side. -/
def SameValue {ε α : Type} (x y : Except ε α) : Prop := ∀ a, x = .ok a ↔ y = .ok a

theorem SameValue.map {ε α β : Type} {x y : Except ε α} (f : α → β) (h : SameValue x y) :
    SameValue (f <$> x) (f <$> y) := by
  intro b
  constructor
  · intro hx
    obtain ⟨a, ha, rfl⟩ := map_eq_ok hx
    rw [(h a).1 ha]
    rfl
  · intro hy
    obtain ⟨a, ha, rfl⟩ := map_eq_ok hy
    rw [(h a).2 ha]
    rfl

/-! ## Complete and delimited fields -/

namespace RawField

variable {f : RawField} {body : Bytes}

/-- The payload of a complete field is read by its framing. -/
theorem IsComplete.exists_occurrence (hf : f.IsComplete) :
    ∃ o r', (occurrence f.wireType).run (ofBytes f.payload) = .ok o r' := by
  obtain ⟨s, -, hskip⟩ := run_rawField_eq_ok.1 (hf 0 0 0 [] rfl)
  have hwindow : runWindow (skip f.wireType) (ofBytes f.payload) = .ok () :=
    (run_eq_ok_iff_runWindow (skip_local f.wireType) (skip_shifts · f.wireType)
      (.skip f.wireType) hskip).1 (run_of_traced hskip)
  obtain ⟨r', hrun⟩ := runWindow_eq_ok.1 hwindow
  rw [skip_eq] at hrun
  obtain ⟨o, s, ho, -⟩ := Decode.run_bind_eq_ok.1 hrun
  exact ⟨o, s, ho⟩

/-- **A complete field that is delimited**: its payload is a length and then the body. -/
structure Holds (f : RawField) (body : Bytes) : Prop where
  complete : f.IsComplete
  isDelimited : f.wireType = .lengthDelimited
  payload : runWindow delimited (ofBytes f.payload) = .ok body

end RawField

/-- What is read behind a length is the payload of a delimited field. -/
theorem Reader.exists_run_occurrence {r : Reader} {body : Bytes}
    (h : runWindow delimited r = .ok body) :
    ∃ place r', (occurrence .lengthDelimited).run r
      = .ok ⟨r.offset, place, .delimited body⟩ r' := by
  obtain ⟨r', hrun⟩ := runWindow_eq_ok.1 h
  obtain ⟨length, s, hlength, htake⟩ := Decode.run_bind_eq_ok.1 hrun
  have henter : enter.run r = .ok (window s.offset body) r' :=
    (Decode.run_bind_of_ok hlength).trans
      (Decode.run_bind_of_ok (f := fun bytes => pure (window s.offset bytes)) htake)
  exact ⟨s.offset, r', (Decode.run_bind_of_ok
    (f := fun inner => pure (Occurrence.mk r.offset inner.start (.delimited inner.rest))) henter :)⟩

/-! ## Payloads made of fields -/

/-- What a payload that is made of fields is read as. -/
inductive Body where
  | message (t : MessageType)
  | entry (k : Scalar) (e : Element)

/-- **A field of the slot holds a payload that is made of fields**, under this number. -/
inductive Slot.Embeds : Slot → Nat → Body → Prop where
  | optional {name : String} {number : Nat} {t : MessageType} :
      Embeds (.field name number (.optional (.message t))) number (.message t)
  | repeated {name : String} {number : Nat} {t : MessageType} {packed : Bool} :
      Embeds (.field name number (.repeated (.message t) packed)) number (.message t)
  | map {name : String} {number : Nat} {k v : Scalar} :
      Embeds (.field name number (.map k v)) number (.entry k (.scalar v))
  | member {name : String} {members : List Member} {m : Member} {t : MessageType}
      (hm : m ∈ members) (he : m.element = .message t) :
      Embeds (.oneof name members) m.number (.message t)

namespace Body

/-- The numbers that are declared: those of the fields of a message, and two for an entry. -/
def numbers : Body → List Nat
  | message t => Layout.numbers t.layout
  | entry _ _ => [Entry.keyNumber, Entry.valueNumber]

/-- **A field under this number holds a payload that itself is made of fields.** -/
inductive Embeds : Body → Nat → Body → Prop where
  | field {t : MessageType} {slot : Slot} {number : Nat} {c : Body} (hslot : slot ∈ t.layout)
      (h : slot.Embeds number c) : Embeds (message t) number c
  | value {k : Scalar} {t : MessageType} :
      Embeds (entry k (.message t)) Entry.valueNumber (message t)

/-- What has been read, of a message or of an entry. -/
@[reducible] def Value : Body → Type
  | message t => Message t
  | entry k e => Entry k e

/-- Takes up one field whose tag has been read. -/
def mergeField (below : Below) : (c : Body) → c.Value → Nat × WireType → Decode c.Value
  | message _, m, found => Record.mergeField below found.1 found.2 m
  | entry _ _, v, found => Entry.mergeField below found.1 found.2 v

/-- Takes up one field. -/
def mergeNext (below : Below) (c : Body) (v : c.Value) : Decode c.Value :=
  tag >>= c.mergeField below v

end Body

/-- **The second input is the first with one field more**, under a number that is not declared:
between complete fields and any rest, or in a payload inside, in a field of the same number. -/
inductive Pads : Body → Bytes → Bytes → Prop where
  | unknown {c : Body} {a : Bytes} {before : List RawField} (ha : RawField.split a = .ok before)
      {u : RawField} (hu : u.IsComplete) (hnumber : u.number ∉ c.numbers) (b : Bytes) :
      Pads c (a ++ b) (a ++ (u.bytes ++ b))
  | inside {c : Body} {a : Bytes} {before : List RawField} (ha : RawField.split a = .ok before)
      {f f' : RawField} {p p' : Bytes} {inner : Body} (hf : f.Holds p) (hf' : f'.Holds p')
      (hnumber : f'.number = f.number) (hembeds : c.Embeds f.number inner)
      (hpads : Pads inner p p') (b : Bytes) :
      Pads c (a ++ (f.bytes ++ b)) (a ++ (f'.bytes ++ b))

/-! ## What is not declared is passed over -/

/-- An entry takes up a field of a number that is neither as skipping it does. -/
theorem Entry.mergeField_of_not_mem {k : Scalar} {e : Element} (below : Below) {number : Nat}
    (h : number ∉ [keyNumber, valueNumber]) (wireType : WireType) (entry : Entry k e) :
    entry.mergeField below number wireType = do
      Reader.skip wireType
      return entry := by
  have hkey : number ≠ 1 := fun heq => h (heq ▸ List.mem_cons_self)
  have hvalue : number ≠ 2 := fun heq => h (heq ▸ List.mem_cons_of_mem keyNumber List.mem_cons_self)
  rw [mergeField, if_neg hkey, if_neg hvalue]

namespace Body

variable {below : Below} {c : Body}

theorem mergeField_takesPayload (hbelow : ∀ k, below.Shifts k) (c : Body) (v : c.Value)
    (found : Nat × WireType) : TakesPayload found.2 (c.mergeField below v found) := by
  cases c with
  | message t => exact Record.mergeField_takesPayload hbelow v found
  | entry k e => exact Entry.mergeField_takesPayload hbelow v found

theorem fieldStep_mergeNext (hbelow : ∀ k, below.Shifts k) (c : Body) :
    FieldStep (c.mergeNext below) :=
  fieldStep_of_tag (c.mergeField_takesPayload hbelow)

/-- **A field that is not declared leaves what was read as it is.** -/
theorem runWindow_mergeField_unknown {u : RawField} (hu : u.IsComplete)
    (hnumber : u.number ∉ c.numbers) (v : c.Value) :
    runWindow (c.mergeField below v (u.number, u.wireType)) (ofBytes u.payload) = .ok v := by
  obtain ⟨o, r', ho⟩ := hu.exists_occurrence
  have hskip : c.mergeField below v (u.number, u.wireType)
      = Reader.skip u.wireType >>= fun _ => pure v := by
    cases c with
    | message t => exact Record.mergeField_of_not_mem v hnumber
    | entry k e => exact Entry.mergeField_of_not_mem below hnumber u.wireType v
  rw [hskip]
  exact runWindow_eq_ok.2 ⟨r', Decode.run_bind_of_ok (run_skip_of_occurrence ho)⟩

/-- A field that is not declared has the effect of no field. -/
theorem sameEffect_unknown (hbelow : ∀ k, below.Shifts k) {u : RawField} (hu : u.IsComplete)
    (hnumber : u.number ∉ c.numbers) : SameEffect (c.mergeNext below) [] u.bytes := by
  intro v v'
  have hleads : Leads (c.mergeNext below) u.bytes v v' ↔ _ :=
    leads_field_iff (c.mergeField_takesPayload hbelow) hu
  rw [runWindow_mergeField_unknown hu hnumber, Except.ok.injEq] at hleads
  exact FieldStep.leads_nil_iff.trans hleads.symm

end Body

/-! ## Payloads that are read alike -/

namespace Body

/-- The occurrences are read alike, with these decoders one level down. -/
def ReadAlike (below : Below) (o o' : Occurrence) : Body → Prop
  | message t => SameValue (Element.read below (.message t) o) (Element.read below (.message t) o')
  | entry k e => SameValue (Entry.read none k e o) (Entry.read none k e o')

/-- Windows over bytes with the same effect give the same value, wherever they stand. -/
theorem sameValue_of_sameEffect {below : Below} (hbelow : ∀ k, below.Shifts k) {c : Body}
    {r r' : Reader} (h : SameEffect (c.mergeNext below) r.rest r'.rest) (v : c.Value) :
    SameValue (runWindow (untilEmpty (c.mergeNext below) v) r)
      (runWindow (untilEmpty (c.mergeNext below) v) r') := by
  have hstep := c.fieldStep_mergeNext hbelow
  intro v'
  rw [hstep.runWindow_eq_ok_iff_leads, hstep.runWindow_eq_ok_iff_leads]
  exact h v v'

/-- **Payloads with the same effect on every level are read alike**, wherever they stand. -/
theorem readAlike {c : Body} {p p' : Bytes}
    (h : ∀ levels, SameEffect (c.mergeNext (Below.ofLevels levels)) p p') (levels : Nat)
    (offset place offset' place' : Nat) :
    c.ReadAlike (Below.ofLevels levels) ⟨offset, place, .delimited p⟩
      ⟨offset', place', .delimited p'⟩ := by
  have hvalue : ∀ levels place place' v, SameValue
      (runWindow (untilEmpty (c.mergeNext (Below.ofLevels levels)) v) (window place p))
      (runWindow (untilEmpty (c.mergeNext (Below.ofLevels levels)) v) (window place' p')) :=
    fun levels _ _ => sameValue_of_sameEffect (Below.ofLevels_shifts · levels) (h levels)
  cases c with
  | message t =>
    cases levels with
    | zero => exact fun _ => ⟨nofun, nofun⟩
    | succ levels => exact (hvalue levels place place' (Record.empty t.layout)).map Item.message
  | entry k e => exact hvalue 0 place place' (Entry.empty k e)

end Body

section Absorb

variable {below : Below} {o o' : Occurrence} {inner : Body} {number : Nat}

/-- A slot absorbs alike what is read alike. -/
theorem Content.absorb_sameValue {slot : Slot} (hslot : slot.numbers.Nodup)
    (hembeds : slot.Embeds number inner) (h : inner.ReadAlike below o o') (c : Content slot) :
    SameValue (c.absorb below number o) (c.absorb below number o') := by
  cases hembeds with
  | optional => exact h.map present
  | repeated =>
    cases c with
    | repeated vs => exact (h.map fun v => [v]).map _
  | map =>
    cases c with
    | map entries => exact h.map _
  | @member name members m t hm he =>
    obtain ⟨name', number', element⟩ := m
    obtain rfl : element = .message t := he
    simp only [absorb, Member.find?_number hslot hm]
    exact h.map _

/-- The number is one of the slot's. -/
theorem Slot.Embeds.mem_numbers {slot : Slot} (h : slot.Embeds number inner) :
    number ∈ slot.numbers := by
  cases h with
  | optional | repeated | map => exact List.mem_singleton_self _
  | member hm he => exact List.mem_map_of_mem hm

/-- **A record absorbs alike what is read alike.** -/
theorem Record.absorb_sameValue {slot : Slot} (hembeds : slot.Embeds number inner)
    (h : inner.ReadAlike below o o') :
    ∀ {l : Layout} (r : Record l), l.WellFormed → slot ∈ l →
      SameValue (r.absorb below number o) (r.absorb below number o')
  | _, .nil, _, hslot => absurd hslot List.not_mem_nil
  | first :: _, .cons c rest, hl, hslot => by
    simp only [absorb]
    rcases List.mem_cons.1 hslot with rfl | hrest
    · rw [Slot.has, List.contains_eq_mem, decide_eq_true hembeds.mem_numbers]
      exact (Content.absorb_sameValue hl.nodup_head hembeds h c).map _
    · rw [hl.has_eq_false (List.mem_flatMap_of_mem hrest hembeds.mem_numbers)]
      exact (absorb_sameValue hembeds h rest hl.tail hrest).map _

end Absorb

/-- **Fields of one number have the same effect when their payloads have**, on every level. -/
theorem Body.Embeds.sameEffect {c inner : Body} {number : Nat} (hembeds : c.Embeds number inner)
    {f f' : RawField} (hf : f.number = number) (hf' : f'.number = number) {p p' : Bytes}
    (hp : f.Holds p) (hp' : f'.Holds p')
    (h : ∀ levels, SameEffect (inner.mergeNext (Below.ofLevels levels)) p p') (levels : Nat) :
    SameEffect (c.mergeNext (Below.ofLevels levels)) f.bytes f'.bytes := by
  intro v v'
  have hpayload := c.mergeField_takesPayload (Below.ofLevels_shifts · levels)
  refine (leads_field_iff hpayload hp.complete).trans
    (Iff.trans ?_ (leads_field_iff hpayload hp'.complete).symm)
  obtain ⟨place, r, ho⟩ := exists_run_occurrence hp.payload
  obtain ⟨place', r', ho'⟩ := exists_run_occurrence hp'.payload
  rw [hf, hf', hp.isDelimited, hp'.isDelimited]
  have halike := Body.readAlike h levels 0 place 0 place'
  cases hembeds with
  | @field t slot _ _ hslot hembeds =>
    refine (Record.runWindow_mergeField_eq_ok ho).trans
      (Iff.trans ?_ (Record.runWindow_mergeField_eq_ok ho').symm)
    exact and_congr_right fun _ =>
      Record.absorb_sameValue hembeds halike v t.layout_wellFormed hslot v'
  | @value k t =>
    have hvalue : SameValue
        (runWindow (Item.merge (Below.ofLevels levels) (.message t) .lengthDelimited)
          (ofBytes f.payload))
        (runWindow (Item.merge (Below.ofLevels levels) (.message t) .lengthDelimited)
          (ofBytes f'.payload)) := by
      intro item
      rw [Item.merge_eq, runWindow_takeUp_eq_ok ho, runWindow_takeUp_eq_ok ho']
      exact and_congr_right fun _ => halike item
    have hset := hvalue.map (fun value => Entry.mk v.key value)
    rw [← runWindow_map, ← runWindow_map] at hset
    exact hset v'

/-- **What is padded has the effect it had before**, on every level. -/
theorem Pads.sameEffect {c : Body} {d d' : Bytes} (h : Pads c d d') :
    ∀ levels, SameEffect (c.mergeNext (Below.ofLevels levels)) d d' := by
  induction h with
  | @unknown c a before ha u hu hnumber b =>
    intro levels
    have hbelow := (Below.ofLevels_shifts · levels)
    exact (Body.sameEffect_unknown hbelow hu hnumber).between (c.fieldStep_mergeNext hbelow) ha
      rfl (RawField.isComplete_iff.1 hu) b
  | @inside c a before ha f f' p p' inner hf hf' hnumber hembeds _ b ih =>
    intro levels
    exact (hembeds.sameEffect rfl hnumber hf hf' ih levels).between
      (c.fieldStep_mergeNext (Below.ofLevels_shifts · levels)) ha
      (RawField.isComplete_iff.1 hf.complete) (RawField.isComplete_iff.1 hf'.complete) b

namespace Message

/-- **Fields that are not declared make no difference.**  A message takes up an input, and becomes
what it becomes, exactly when it does so with one field more that is not declared: between complete
fields and any rest, on the outermost level or in an embedded message or map entry on any level.
The same holds of an entry that is read alone. -/
theorem unknown_fields_transparent :
    (∀ {t : MessageType} {d d' : Bytes}, Pads (.message t) d d' →
      ∀ (budget : Budget) (m m' : Message t),
        m.mergeWithin budget d = .ok m' ↔ m.mergeWithin budget d' = .ok m') ∧
    ∀ {k : Scalar} {e : Element} {x x' p p' : Bytes},
      runWindow delimited (ofBytes x) = .ok p → runWindow delimited (ofBytes x') = .ok p' →
      Pads (.entry k e) p p' → ∀ (budget : Budget) (entry : Entry k e),
        runWindow (Entry.merge budget k e .lengthDelimited) (ofBytes x) = .ok entry ↔
          runWindow (Entry.merge budget k e .lengthDelimited) (ofBytes x') = .ok entry := by
  constructor
  · intro t d d' hpads budget m m'
    exact hpads.sameEffect budget.levels m m'
  · intro k e x x' p p' hx hx' hpads budget entry
    obtain ⟨place, r, ho⟩ := exists_run_occurrence hx
    obtain ⟨place', r', ho'⟩ := exists_run_occurrence hx'
    rw [Entry.merge_eq, runWindow_takeUp_eq_ok ho, runWindow_takeUp_eq_ok ho']
    have heffect : SameEffect (Body.mergeNext budget.enter.below (.entry k e))
        (window place p).rest (window place' p').rest := hpads.sameEffect budget.enter.levels
    exact and_congr_right fun _ =>
      Body.sameValue_of_sameEffect (budget.enter.below_shifts ·) heffect (Entry.empty k e) entry

/-- A field of number 2 in front of the text inside a message, which is two bytes longer for it; and
a field of number 3 between the key and the value of a map entry. -/
theorem unknown_fields_transparent_inside :
    Pads (.message .nestedMessage) [10, 3, 10, 1, 120] [10, 5, 16, 5, 10, 1, 120] ∧
    (Message.empty .nestedMessage).mergeWithin .standard [10, 5, 16, 5, 10, 1, 120]
      = .ok (.cons (.present (.message (.cons (.plain "x") .nil))) .nil) ∧
    Pads (.entry .string (.scalar .int32)) [10, 1, 97, 16, 7] [10, 1, 97, 24, 9, 16, 7] ∧
    runWindow (Entry.merge .standard .string (.scalar .int32) .lengthDelimited)
      (ofBytes [7, 10, 1, 97, 24, 9, 16, 7]) = .ok ⟨"a", .scalar (7 : Int32)⟩ := by
  have hu : RawField.IsComplete ⟨2, .varint, [16], [5]⟩ := RawField.isComplete_iff.2 rfl
  have hf : RawField.Holds ⟨1, .lengthDelimited, [10], [3, 10, 1, 120]⟩ [10, 1, 120] :=
    ⟨RawField.isComplete_iff.2 rfl, rfl, rfl⟩
  have hf' : RawField.Holds ⟨1, .lengthDelimited, [10], [5, 16, 5, 10, 1, 120]⟩
      [16, 5, 10, 1, 120] := ⟨RawField.isComplete_iff.2 rfl, rfl, rfl⟩
  have hinner : Pads (.message .nestedInner) [10, 1, 120] [16, 5, 10, 1, 120] :=
    .unknown (a := []) rfl hu (by decide) [10, 1, 120]
  have hpads : Pads (.message .nestedMessage) [10, 3, 10, 1, 120] [10, 5, 16, 5, 10, 1, 120] :=
    .inside (a := []) rfl hf hf' rfl (.field List.mem_cons_self .optional) hinner []
  have hkey : RawField.split [10, 1, 97] = .ok [⟨1, .lengthDelimited, [10], [1, 97]⟩] := rfl
  have hv : RawField.IsComplete ⟨3, .varint, [24], [9]⟩ := RawField.isComplete_iff.2 rfl
  have hentry : Pads (.entry .string (.scalar .int32)) [10, 1, 97, 16, 7]
      [10, 1, 97, 24, 9, 16, 7] :=
    .unknown hkey hv (by decide) [16, 7]
  exact ⟨hpads, (unknown_fields_transparent.1 hpads .standard _ _).1 rfl, hentry,
    (unknown_fields_transparent.2 (x := [5, 10, 1, 97, 16, 7]) rfl rfl hentry .standard _).1 rfl⟩

end Message

end Protowire
