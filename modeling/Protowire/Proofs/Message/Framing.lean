import Protowire.Proofs.Message.TakeUp
import Protowire.Proofs.Wire.Fields

/-!
# Proofs/Message/Framing — fields a message knows are framed as those it does not

A computation is **framed as** a wire type (`Decode.FramedAs`) when it ends where skipping a field
of that wire type ends.  Everything that takes up one field is: each kind reads its payload in its
own way, by a step that ends where skipping the payload does, and after that step it reads no more.
So an input falls into the same fields for all message types: the ones `RawField.split` finds.

`Message.mergeWithin_eq_ok_iff` says what that makes of a whole input: a message takes it up exactly
when it takes up the fields one after the other, each of them alone (`Message.takeField`).
-/

namespace Protowire

/-- Ends where skipping a field of the wire type ends. -/
def Decode.FramedAs {α : Type} (wireType : WireType) (x : Decode α) : Prop :=
  ∀ ⦃r : Reader⦄ ⦃a : α⦄ ⦃r' : Reader⦄, x.run r = .ok a r' →
    (Reader.skip wireType).run r = .ok () r'

namespace Decode.FramedAs

variable {α β : Type} {wireType : WireType}

theorem skip (wireType : WireType) : FramedAs wireType (Reader.skip wireType) := fun _ _ _ => id

/-- What works on a value and reads no more ends where the value does. -/
theorem bind_ofExcept {x : Decode α} (h : FramedAs wireType x) (f : α → Except DecodeError β) :
    FramedAs wireType (x >>= fun a => Decode.ofExcept (f a)) := by
  intro r b r' hrun
  obtain ⟨a, s, hx, hlast⟩ := Decode.run_bind_eq_ok.1 hrun
  obtain ⟨-, rfl⟩ := Decode.run_ofExcept_eq_ok.1 hlast
  exact h hx

/-- What is made of a value does not change where it ends. -/
theorem map {x : Decode α} (h : FramedAs wireType x) (f : α → β) :
    FramedAs wireType (x >>= fun a => pure (f a)) :=
  h.bind_ofExcept fun a => .ok (f a)

/-- A check that goes first reads nothing. -/
theorem ofExcept_bind {x : Except DecodeError α} {f : α → Decode β}
    (h : ∀ a, x = .ok a → FramedAs wireType (f a)) :
    FramedAs wireType (Decode.ofExcept x >>= f) := by
  intro r b r' hrun
  obtain ⟨a, s, hcheck, hf⟩ := Decode.run_bind_eq_ok.1 hrun
  obtain ⟨hx, rfl⟩ := Decode.run_ofExcept_eq_ok.1 hcheck
  exact h a hx hf

/-- A read of one framing is a read of the framing that was checked to be that one. -/
theorem check_bind {expected : WireType} {x : Decode α} (h : FramedAs expected x) :
    FramedAs wireType (Decode.ofExcept (expected.check wireType) >>= fun _ => x) :=
  .ofExcept_bind fun _ hcheck => WireType.eq_of_check_eq_ok hcheck ▸ h

/-- A look at the offset reads nothing. -/
theorem offset {f : Nat → Decode α} (h : ∀ n, FramedAs wireType (f n)) :
    FramedAs wireType (get >>= fun r : Reader => f r.offset) :=
  fun r _ _ hrun => h r.offset hrun

/-- What never succeeds ends nowhere else. -/
theorem throw (e : DecodeError) : FramedAs wireType (MonadExcept.throw e : Decode α) := nofun

end Decode.FramedAs

/-- Takes up one field of an input, with no other bytes in sight. -/
def Message.takeField {t : MessageType} (budget : Budget) (m : Message t) (f : RawField) :
    Except DecodeError (Message t) :=
  Reader.runWindow (Record.mergeField budget.below f.number f.wireType m)
    (Reader.ofBytes f.payload)

/-! ## One payload, read and skipped -/

namespace Reader

variable {α : Type}

theorem varint_framedAs : Decode.FramedAs .varint varint := fun _ _ _ hrun =>
  Decode.run_bind_of_ok hrun

theorem take_eight_framedAs : Decode.FramedAs .fixed64 (take 8) := fun _ _ _ hrun =>
  Decode.run_bind_of_ok hrun

theorem take_four_framedAs : Decode.FramedAs .fixed32 (take 4) := fun _ _ _ hrun =>
  Decode.run_bind_of_ok hrun

theorem fixed64_framedAs : Decode.FramedAs .fixed64 fixed64 := take_eight_framedAs.map _

theorem fixed32_framedAs : Decode.FramedAs .fixed32 fixed32 := take_four_framedAs.map _

theorem delimited_framedAs : Decode.FramedAs .lengthDelimited delimited := fun _ _ _ hrun =>
  Decode.run_bind_of_ok hrun

/-- **A payload that is entered is skipped to the same place**: the window over it ends where its
bytes do. -/
theorem enter_framedAs : Decode.FramedAs .lengthDelimited enter := by
  intro r inner r' hrun
  obtain ⟨length, s, hlength, hwindow⟩ := Decode.run_bind_eq_ok.1 hrun
  obtain ⟨bytes, s', htake, hpure⟩ := (Decode.run_bind_eq_ok (x := take length.toNat)
    (f := fun bytes => pure (window s.offset bytes))).1 hwindow
  obtain ⟨-, rfl⟩ := EStateM.Result.ok.inj hpure
  exact delimited_framedAs ((Decode.run_bind_of_ok hlength).trans htake)

/-! ## One field -/

/-- **What takes up a payload in its place takes it up alone, and the other way round.** -/
theorem run_eq_ok_iff_runWindow {x : Decode α} {wireType : WireType} (hlocal : Decode.Local x)
    (hshift : ∀ k, Decode.Shifts k id x x) (hframed : Decode.FramedAs wireType x)
    {r r' : Reader} {payload : Bytes} {a : α}
    (hskip : (traced (skip wireType)).run r = .ok ((), payload) r') :
    x.run r = .ok a r' ↔ runWindow x (ofBytes payload) = .ok a := by
  obtain ⟨start, pos, bytes⟩ := r
  obtain ⟨rest, hbytes, rfl, hpayload⟩ :=
    exists_of_run_traced (skip_local wireType) hskip
  obtain rfl : bytes = payload ++ rest := hbytes
  -- The same payload in its place, with nothing behind it.
  have hmoved : runWindow x ⟨start, pos, payload⟩ = .ok a
      ↔ runWindow x (ofBytes payload) = .ok a := runWindow_eq_ok_iff_of_rest_eq hshift rfl
  rw [← hmoved, runWindow_eq_ok]
  constructor
  · intro h
    obtain ⟨used, rest', hused, hend, htail⟩ := hlocal h
    obtain rfl : rest = rest' := congrArg Reader.rest hend
    obtain rfl : payload = used := List.append_cancel_right hused
    have := htail []
    rw [List.append_nil] at this
    exact ⟨_, this⟩
  · rintro ⟨s, h⟩
    have hend := hpayload []
    rw [List.append_nil, hframed h] at hend
    obtain rfl : s = ⟨start, pos + payload.length, []⟩ := (EStateM.Result.ok.inj hend).2
    exact hlocal.run_extend h rest

/-- **Takes up the payload that a tag announces**: it ends where the payload does, and neither what
follows it nor where it stands matters. -/
structure TakesPayload (wireType : WireType) (x : Decode α) : Prop where
  isLocal : Decode.Local x
  shifts : ∀ k, Decode.Shifts k id x x
  framed : Decode.FramedAs wireType x

/-- **The next field is the one its framing alone shows**, and it is taken up as it would be
alone. -/
theorem run_tag_bind_eq_ok {g : Nat × WireType → Decode α}
    (hg : ∀ found, TakesPayload found.2 (g found)) {r r' : Reader} {a : α} :
    (tag >>= g).run r = .ok a r' ↔
      ∃ f, rawField.run r = .ok f r' ∧
        runWindow (g (f.number, f.wireType)) (ofBytes f.payload) = .ok a := by
  have alone : ∀ {found : Nat × WireType} {s s' : Reader} {payload : Bytes},
      (traced (skip found.2)).run s = .ok ((), payload) s' →
        ((g found).run s = .ok a s' ↔ runWindow (g found) (ofBytes payload) = .ok a) :=
    fun {found _ _ _} hskip => run_eq_ok_iff_runWindow (hg found).isLocal (hg found).shifts
      (hg found).framed hskip
  constructor
  · intro h
    obtain ⟨⟨number, wireType⟩, s, htag, hfield⟩ := Decode.run_bind_eq_ok.1 h
    obtain ⟨tag, htag'⟩ := exists_run_traced tag_local htag
    obtain ⟨payload, hskip⟩ := exists_run_traced (skip_local wireType)
      ((hg (number, wireType)).framed hfield)
    exact ⟨⟨number, wireType, tag, payload⟩, run_rawField_eq_ok.2 ⟨s, htag', hskip⟩,
      (alone hskip).1 hfield⟩
  · rintro ⟨f, hraw, hwindow⟩
    obtain ⟨s, htag, hskip⟩ := run_rawField_eq_ok.1 hraw
    exact (Decode.run_bind_of_ok (run_of_traced htag)).trans ((alone hskip).2 hwindow)

variable {σ : Type} {g : σ → Nat × WireType → Decode σ}

/-- **A tag and then the payload it announces is a step of a loop over fields.** -/
theorem fieldStep_of_tag (hg : ∀ s found, TakesPayload found.2 (g s found)) :
    FieldStep fun s => tag >>= g s where
  isLocal s := tag_local.bind fun found => (hg s found).isLocal
  shifts k s := (tag_shifts k).bind fun found => (hg s found).shifts k
  framed {s _ _ _} hrun := by
    obtain ⟨f, hraw, -⟩ := (run_tag_bind_eq_ok (hg s)).1 hrun
    exact ⟨f, hraw⟩

/-- **One field leads where its payload leads, taken up alone.** -/
theorem leads_field_iff (hg : ∀ s found, TakesPayload found.2 (g s found)) {f : RawField}
    (hf : f.IsComplete) {s s' : σ} :
    Leads (fun s => tag >>= g s) f.bytes s s' ↔
      runWindow (g s (f.number, f.wireType)) (ofBytes f.payload) = .ok s' := by
  rw [(fieldStep_of_tag hg).leads_bytes_iff hf]
  constructor
  · intro hreads
    obtain ⟨f', hraw, hwindow⟩ := (run_tag_bind_eq_ok (hg s)).1 (hreads 0 0 0 [] rfl)
    obtain ⟨rfl, -⟩ := EStateM.Result.ok.inj (hraw.symm.trans (hf 0 0 0 [] rfl))
    exact hwindow
  · exact fun hwindow n start pos tail hn =>
      (run_tag_bind_eq_ok (hg s)).2 ⟨f, hf n start pos tail hn, hwindow⟩

/-- **An input leads where its fields lead**, taken up one by one and each alone. -/
theorem leads_iff_foldlM (hg : ∀ s found, TakesPayload found.2 (g s found)) {bytes : Bytes}
    {s s' : σ} :
    Leads (fun s => tag >>= g s) bytes s s' ↔ ∃ fields, RawField.split bytes = .ok fields ∧
      fields.foldlM (fun s f => runWindow (g s (f.number, f.wireType)) (ofBytes f.payload)) s
        = .ok s' := by
  have hstep : FieldStep fun s => tag >>= g s := fieldStep_of_tag hg
  rw [hstep.leads_iff_split]
  refine exists_congr fun fields => and_congr_right fun hsplit => ?_
  have hfields : ∀ f ∈ fields, f.IsComplete := (RawField.split_eq_ok_iff.1 hsplit).1
  refine FoldsTo.iff_foldlM fun f hf s s' => ?_
  rw [← leads_field_iff hg (hfields f hf), hstep.leads_bytes_iff (hfields f hf)]

end Reader

/-! ## What takes up one field -/

open Reader

/-- **Every kind of scalar is read as its framing is skipped.** -/
theorem Scalar.read_framedAs (s : Scalar) : Decode.FramedAs s.wireType s.read := by
  cases s with
  | uint64 => exact varint_framedAs
  | int32 | int64 | uint32 | bool | sint32 | sint64 => exact varint_framedAs.map _
  | fixed32 | float => exact fixed32_framedAs
  | sfixed32 => exact fixed32_framedAs.map _
  | fixed64 | double => exact fixed64_framedAs
  | sfixed64 => exact fixed64_framedAs.map _
  | bytes => exact delimited_framedAs
  | string =>
    rw [read_string_eq]
    exact .offset (f := fun offset => do
        let bytes ← delimited
        Decode.ofExcept (bytes.toString?.elim (.error (.invalidUtf8 offset)) .ok))
      fun _ => delimited_framedAs.bind_ofExcept _

theorem Scalar.merge_framedAs (s : Scalar) (wireType : WireType) :
    Decode.FramedAs wireType (s.merge wireType) :=
  s.read_framedAs.check_bind

namespace Item

variable (below : Below)

theorem merge_framedAs (e : Element) (wireType : WireType) :
    Decode.FramedAs wireType (Item.merge below e wireType) := by
  cases e with
  | scalar s =>
    rw [merge]
    exact (s.merge_framedAs wireType).map Item.scalar
  | message t =>
    cases below with
    | none =>
      rw [merge]
      exact .check_bind (.offset fun offset => .throw (.nestedTooDeep offset))
    | some decode =>
      rw [merge]
      refine .check_bind ?_
      simp only [bind_pure_comp, Decode.map_ofExcept]
      exact enter_framedAs.bind_ofExcept _

theorem mergeMany_framedAs (e : Element) (wireType : WireType) :
    Decode.FramedAs wireType (Item.mergeMany below e wireType) := by
  cases e with
  | message t =>
    rw [mergeMany]
    exact (merge_framedAs below (.message t) wireType).map fun v => [v]
  | scalar s =>
    rw [mergeMany]
    split
    next hpacked =>
      obtain ⟨-, rfl⟩ := hpacked
      simp only [bind_pure_comp, Decode.map_ofExcept]
      exact enter_framedAs.bind_ofExcept _
    next => exact (merge_framedAs below (.scalar s) wireType).map fun v => [v]

end Item

namespace Entry

variable {k : Scalar} {e : Element} {below : Below}

/-- A map entry ends where its payload does, whatever fields the payload holds. -/
theorem mergeWith_framedAs (below inner : Below) (k : Scalar) (e : Element) (wireType : WireType) :
    Decode.FramedAs wireType (mergeWith below inner k e wireType) :=
  .check_bind (.offset (f := fun offset => do
      Decode.ofExcept (below.check offset)
      let payload ← enter
      Decode.ofExcept (runWindow (untilEmpty (mergeNext inner) (empty k e)) payload))
    fun _ => .ofExcept_bind fun _ _ => enter_framedAs.bind_ofExcept _)

theorem mergeField_framedAs (below : Below) (number : Nat) (wireType : WireType)
    (entry : Entry k e) : Decode.FramedAs wireType (entry.mergeField below number wireType) := by
  rw [mergeField]
  split
  · exact (k.merge_framedAs wireType).map fun v => { entry with key := v }
  · split
    · exact (Item.merge_framedAs below e wireType).map fun v => { entry with value := v }
    · exact (Decode.FramedAs.skip wireType).map fun _ => entry

theorem mergeField_takesPayload (hbelow : ∀ k, below.Shifts k) (entry : Entry k e)
    (found : Nat × WireType) :
    Reader.TakesPayload found.2 (entry.mergeField below found.1 found.2) where
  isLocal := mergeField_local below found.1 found.2 entry
  shifts k := mergeField_shifts (hbelow k) found.1 found.2 entry
  framed := mergeField_framedAs below found.1 found.2 entry

end Entry

/-- **Each shape of a slot takes up a field as it would be skipped.** -/
theorem Content.mergeField_framedAs (below : Below) (number : Nat) (wireType : WireType)
    {slot : Slot} (c : Content slot) :
    Decode.FramedAs wireType (c.mergeField below number wireType) := by
  cases c with
  | @plain _ _ s v =>
    rw [mergeField]
    exact (s.merge_framedAs wireType).map Content.plain
  | @absent _ _ e | @present _ _ e v =>
    rw [mergeField]
    exact (Item.merge_framedAs below e wireType).map Content.present
  | @repeated _ _ e _ vs =>
    rw [mergeField]
    exact (Item.mergeMany_framedAs below e wireType).map fun new =>
      Content.repeated (vs.append (Items.ofList new))
  | @map _ _ k v entries =>
    rw [mergeField]
    exact (Entry.mergeWith_framedAs below none k (.scalar v) wireType).map fun entry =>
      Content.map (entries.insert entry.key entry.value.scalarValue)
  | @unset _ members | @chosen _ members _ _ _ =>
    cases hm : Member.find? number members with
    | none =>
      simp only [mergeField, hm]
      exact (Decode.FramedAs.skip wireType).map _
    | some m =>
      simp only [mergeField, hm]
      exact (Item.merge_framedAs below m.1.element wireType).map _

namespace Record

variable {l : Layout} {below : Below}

/-- **A record takes up a field as it skips it**, in whichever slot. -/
theorem mergeField_framedAs (below : Below) (number : Nat) (wireType : WireType) :
    ∀ {l : Layout} (r : Record l), Decode.FramedAs wireType (r.mergeField below number wireType)
  | _, .nil => by
    rw [mergeField]
    exact (Decode.FramedAs.skip wireType).map fun _ => nil
  | slot :: _, .cons c rest => by
    rw [mergeField]
    split
    · exact (c.mergeField_framedAs below number wireType).map fun c => cons c rest
    · exact (mergeField_framedAs below number wireType rest).map fun rest => cons c rest

theorem mergeField_takesPayload (hbelow : ∀ k, below.Shifts k) (r : Record l)
    (found : Nat × WireType) : TakesPayload found.2 (r.mergeField below found.1 found.2) where
  isLocal := mergeField_local below found.1 found.2 r
  shifts k := mergeField_shifts (hbelow k) found.1 found.2 r
  framed := mergeField_framedAs below found.1 found.2 r

/-- **Taking up the next field is a step of a loop over fields.** -/
theorem fieldStep_mergeNext (hbelow : ∀ k, below.Shifts k) :
    FieldStep (mergeNext (l := l) below) :=
  fieldStep_of_tag (mergeField_takesPayload hbelow)

end Record

/-! ## All fields -/

namespace Message

variable {t : MessageType} {budget : Budget}

/-- **A message takes up an input exactly when it takes up its fields one by one**, each alone. -/
theorem mergeWithin_eq_ok_iff {m m' : Message t} {bytes : Bytes} :
    m.mergeWithin budget bytes = .ok m' ↔
      ∃ fields, RawField.split bytes = .ok fields ∧
        (fields.map RawField.bytes).flatten = bytes ∧
        fields.foldlM (takeField budget) m = .ok m' := by
  have hleads : m.mergeWithin budget bytes = .ok m' ↔ _ :=
    leads_iff_foldlM (Record.mergeField_takesPayload (budget.below_shifts ·))
  rw [hleads]
  refine exists_congr fun fields => and_congr_right fun hsplit => ?_
  exact (and_iff_right (RawField.split_eq_ok_iff.1 hsplit).2).symm

/-- **Known fields are framed as unknown ones.**  Whatever takes up one field — a scalar, a value,
a list, a map entry, a message — ends where skipping it would; and a message takes up an input
exactly when it takes up, one by one and each alone, the fields that tags and skipping show. -/
theorem framed_as_skipped :
    (∀ (s : Scalar) (w : WireType), (s.merge w).FramedAs w) ∧
    (∀ (below : Below) (e : Element) (w : WireType), (Item.merge below e w).FramedAs w) ∧
    (∀ (below : Below) (e : Element) (w : WireType), (Item.mergeMany below e w).FramedAs w) ∧
    (∀ (budget : Budget) (k : Scalar) (e : Element) (w : WireType),
      (Entry.merge budget k e w).FramedAs w) ∧
    (∀ (t : MessageType) (below : Below) (number : Nat) (w : WireType) (m : Message t),
      (Record.mergeField below number w m).FramedAs w) ∧
    ∀ (t : MessageType) (budget : Budget) (m m' : Message t) (bytes : Bytes),
      m.mergeWithin budget bytes = .ok m' ↔
        ∃ fields, RawField.split bytes = .ok fields ∧
          (fields.map RawField.bytes).flatten = bytes ∧
          fields.foldlM (takeField budget) m = .ok m' :=
  ⟨fun s w => s.merge_framedAs w,
    fun below e w => Item.merge_framedAs below e w,
    fun below e w => Item.mergeMany_framedAs below e w,
    fun budget k e w => Entry.mergeWith_framedAs budget.below budget.enter.below k e w,
    fun _ below number w m => Record.mergeField_framedAs below number w m,
    fun _ _ _ _ _ => mergeWithin_eq_ok_iff⟩

end Message

end Protowire
