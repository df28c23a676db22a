import Mathlib.Data.List.Chain
import Protowire.Proofs.Wire.Locality
import Protowire.Wire.Session

/-!
# Proofs/Wire/Windows — the readers of a session are nested windows of one input

Whatever a session is told to do, and whether it can do it or not, a step does one of three things
(`Session.Moves`): the window on top is read on in, a window is split off from what it has left, or
the window on top is dropped.  So all windows stay windows of the input, each ends at the cursor of
the one it was split off from (`Session.Nested`), and no cursor goes back
(`Session.Moves.readsOn`).

A failure leaves the cursor where it was, or behind the varint that leads a tag or a delimited
payload (`Decode.StallsAtLead`).
-/

namespace Protowire

/-! ## Where a reader can get to -/

namespace Reader

variable {r r' : Reader}

/-- The cursor has gone on in its window, by no byte or by some. -/
def ReadsOn (r r' : Reader) : Prop :=
  ∃ used rest, r.rest = used ++ rest ∧ r' = ⟨r.start, r.pos + used.length, rest⟩

/-- The cursor is where it was, or exactly behind one well-formed varint. -/
def AtLead (r r' : Reader) : Prop :=
  r' = r ∨ ∃ word length, Varint.decode r.rest = some (word, length) ∧ r' = r.advance length

theorem ReadsOn.refl (r : Reader) : r.ReadsOn r := ⟨[], r.rest, rfl, rfl⟩

/-- Reading on neither moves a window nor resizes it, and takes no byte back. -/
theorem ReadsOn.same_window (h : r.ReadsOn r') :
    r'.start = r.start ∧ r'.size = r.size ∧ r.pos ≤ r'.pos := by
  obtain ⟨used, rest, hrest, rfl⟩ := h
  refine ⟨rfl, ?_, Nat.le_add_right r.pos used.length⟩
  rw [size, size, hrest, List.length_append, Nat.add_assoc]

/-- Behind a header and the payload it announces the cursor has gone on. -/
theorem readsOn_of_rest_eq {header bytes rest : Bytes} (h : r.rest = header ++ (bytes ++ rest)) :
    r.ReadsOn ⟨r.start, r.pos + header.length + bytes.length, rest⟩ :=
  ⟨header ++ bytes, rest, by rw [h, List.append_assoc],
    by rw [List.length_append, Nat.add_assoc]⟩

/-- Behind a varint the cursor has gone on. -/
theorem AtLead.readsOn (h : r.AtLead r') : r.ReadsOn r' := by
  rcases h with rfl | ⟨word, length, hdecode, rfl⟩
  · exact .refl r'
  · obtain ⟨used, rest, hrest, rfl, -, -⟩ := Varint.exists_used_of_decode hdecode
    exact ⟨used, rest, hrest, by rw [advance, hrest, List.drop_left]⟩

end Reader

namespace Decode

variable {α β : Type} {x : Decode α}

/-- Reading what succeeds reads on. -/
theorem Local.readsOn (hx : Local x) {r r' : Reader} {a : α} (h : x.run r = .ok a r') :
    r.ReadsOn r' := by
  obtain ⟨used, rest, hrest, hr', -⟩ := hx h
  exact ⟨used, rest, hrest, hr'⟩

/-! ## Where failures leave the cursor -/

/-- **A failure leaves the cursor at a place** that is so related to where it was. -/
def Stalls (place : Reader → Reader → Prop) (x : Decode α) : Prop :=
  ∀ ⦃r e r'⦄, x.run r = .error e r' → place r r'

/-- A failure leaves the cursor where it was. -/
abbrev KeepsPlace (x : Decode α) : Prop := Stalls (fun r r' => r' = r) x

/-- A failure leaves the cursor where it was, or exactly behind one well-formed varint. -/
abbrev StallsAtLead (x : Decode α) : Prop := Stalls Reader.AtLead x

/-- A sequence fails as its first part does, or as its second part does from where the first one
ended. -/
theorem or_of_run_bind_eq_error {f : α → Decode β} {r r' : Reader} {e : DecodeError}
    (h : (x >>= f).run r = .error e r') :
    x.run r = .error e r' ∨ ∃ a s, x.run r = .ok a s ∧ (f a).run s = .error e r' := by
  rw [EStateM.run_bind] at h
  cases hx : x.run r with
  | error e' s =>
    rw [hx] at h
    obtain ⟨rfl, rfl⟩ := EStateM.Result.error.inj h
    exact .inl rfl
  | ok a s =>
    rw [hx] at h
    exact .inr ⟨a, s, rfl, h⟩

theorem KeepsPlace.ofExcept (x : Except DecodeError α) : KeepsPlace (Decode.ofExcept x) := by
  intro r e r' h
  cases x with
  | error e' => exact (EStateM.Result.error.inj h).2.symm
  | ok a => exact absurd h nofun

theorem KeepsPlace.stallsAtLead (h : KeepsPlace x) : StallsAtLead x :=
  fun _ _ _ hrun => .inl (h hrun)

namespace Stalls

variable {place : Reader → Reader → Prop}

/-- What is made of a value cannot fail. -/
theorem map (h : Stalls place x) (f : α → β) : Stalls place (x >>= fun a => pure (f a)) := by
  intro r e r' hrun
  rcases or_of_run_bind_eq_error hrun with hx | ⟨_, _, -, hpure⟩
  · exact h hx
  · exact absurd hpure nofun

theorem offset {g : Nat → Decode α} (h : ∀ n, Stalls place (g n)) :
    Stalls place (get >>= fun r : Reader => g r.offset) :=
  fun r _ _ hrun => h r.offset hrun

end Stalls

end Decode

namespace Reader

open Decode

theorem varint_keepsPlace : KeepsPlace varint := fun _ _ _ h => (run_varint_eq_error h).2

theorem take_keepsPlace (n : Nat) : KeepsPlace (take n) := fun _ _ _ h => (run_take_eq_error h).2.2

theorem fixed32_keepsPlace : KeepsPlace fixed32 := (take_keepsPlace 4).map _

theorem fixed64_keepsPlace : KeepsPlace fixed64 := (take_keepsPlace 8).map _

/-- **What follows a varint and keeps its place fails at the varint's lead.** -/
theorem stallsAtLead_of_varint {α : Type} {f : UInt64 → Decode α}
    (h : ∀ word, KeepsPlace (f word)) : StallsAtLead (varint >>= f) := by
  intro r e r' hrun
  rcases or_of_run_bind_eq_error hrun with hvarint | ⟨word, s, hvarint, hf⟩
  · exact .inl (varint_keepsPlace hvarint)
  · obtain rfl := h word hf
    obtain ⟨length, hdecode, rfl⟩ := run_varint_eq_ok.1 hvarint
    exact .inr ⟨word, length, hdecode, rfl⟩

theorem tag_stallsAtLead : StallsAtLead tag := by
  rw [tag_eq]
  exact .offset (g := fun offset => varint >>= fun key => Decode.ofExcept (Tag.decode key offset))
    fun offset => stallsAtLead_of_varint fun key => .ofExcept (Tag.decode key offset)

theorem delimited_stallsAtLead : StallsAtLead delimited :=
  stallsAtLead_of_varint fun length => take_keepsPlace length.toNat

theorem enter_stallsAtLead : StallsAtLead enter :=
  stallsAtLead_of_varint fun length =>
    .offset (g := fun start => do return window start (← take length.toNat)) fun start =>
      (take_keepsPlace length.toNat).map (window start)

theorem occurrence_stallsAtLead (wireType : WireType) : StallsAtLead (occurrence wireType) :=
  occurrence_of_framings (fun f hx _ => hx.map f) .offset varint_keepsPlace.stallsAtLead
    (KeepsPlace.stallsAtLead fixed64_keepsPlace) (KeepsPlace.stallsAtLead fixed32_keepsPlace)
    enter_stallsAtLead wireType

theorem skip_stallsAtLead (wireType : WireType) : StallsAtLead (skip wireType) := by
  rw [skip_eq]
  exact (occurrence_stallsAtLead wireType).map _

end Reader

/-! ## Windows of the input -/

namespace Reader

variable {input : Bytes} {r r' : Reader}

/-- The reader is over a stretch of the input, has read some bytes of it, and has left what is
behind them there. -/
structure IsWindow (input : Bytes) (r : Reader) : Prop where
  end_le : r.start + r.size ≤ input.length
  pos_le : r.pos ≤ r.size
  rest_eq : r.rest = ((input.drop r.start).take r.size).drop r.pos

/-- What a window holds behind its cursor is what the input holds from the offset on. -/
theorem drop_window_eq (input : Bytes) (r : Reader) :
    ((input.drop r.start).take r.size).drop r.pos = (input.drop r.offset).take r.rest.length := by
  rw [List.drop_take, List.drop_drop, size, Nat.add_sub_cancel_left, offset]

/-- **A reader is over a window of the input when what it has left stands in the input where its
cursor is.** -/
theorem isWindow_iff :
    r.IsWindow input ↔ ∃ front back, input = front ++ r.rest ++ back ∧ front.length = r.offset := by
  have hend : r.start + r.size = r.offset + r.rest.length := (Nat.add_assoc _ _ _).symm
  constructor
  · intro h
    have hlen := h.end_le
    have hrest : r.rest = (input.drop r.offset).take r.rest.length :=
      h.rest_eq.trans (drop_window_eq input r)
    obtain ⟨back, hback⟩ : r.rest <+: input.drop r.offset := List.prefix_iff_eq_take.2 hrest
    refine ⟨input.take r.offset, back, ?_, List.length_take_of_le (by omega)⟩
    rw [List.append_assoc, hback, List.take_append_drop]
  · rintro ⟨front, back, rfl, hfront⟩
    refine ⟨?_, Nat.le_add_right r.pos r.rest.length, ?_⟩
    · rw [hend, ← hfront, List.length_append, List.length_append]
      exact Nat.le_add_right _ back.length
    · rw [drop_window_eq, ← hfront, List.append_assoc, List.drop_left, List.take_left]

/-- A window that is read on in stays one. -/
theorem IsWindow.readsOn (h : r.IsWindow input) (hr : r.ReadsOn r') : r'.IsWindow input := by
  obtain ⟨front, back, hinput, hfront⟩ := isWindow_iff.1 h
  obtain ⟨used, rest, hrest, rfl⟩ := hr
  refine isWindow_iff.2 ⟨front ++ used, back, ?_, ?_⟩
  · rw [hinput, hrest, List.append_assoc front used rest]
  · rw [List.length_append, hfront, offset, offset, Nat.add_assoc]

/-- What a window has left may be split off as windows. -/
theorem IsWindow.window {header bytes rest : Bytes} (h : r.IsWindow input)
    (hrest : r.rest = header ++ (bytes ++ rest)) :
    (Reader.window (r.offset + header.length) bytes).IsWindow input := by
  obtain ⟨front, back, hinput, hfront⟩ := isWindow_iff.1 h
  refine isWindow_iff.2 ⟨front ++ header, rest ++ back, ?_, ?_⟩
  · simp only [hinput, hrest, Reader.window, List.append_assoc]
  · rw [List.length_append, hfront]
    rfl

end Reader

/-! ## Sessions -/

/-- Does the step read something that a varint leads: a tag, or the length of a payload?  A field
that is skipped may be one. -/
def Step.hasLead : Step → Bool
  | tag | delimited | enter | skip _ => true
  | varint | take _ | fixed32 | fixed64 | leave => false

namespace Session

open Decode

variable {input : Bytes} {s s' : Session} {step : Step}

/-- The readers of a session, innermost first. -/
def stack (s : Session) : List Reader := s.top :: s.below

/-- The reader that stands on so many others. -/
def readerAt (s : Session) (height : Nat) : Option Reader := s.stack.reverse[height]?

/-- The session after some steps, whether they fail or not. -/
def after (s : Session) (steps : List Step) : Session :=
  steps.foldl (fun s step => (s.step step).2) s

/-- **What a step can do to the readers**: read on in the window on top, split off a window from
what it has left, or drop it. -/
inductive Moves : Session → Session → Prop where
  | reads {top top' : Reader} {below : List Reader} (h : top.ReadsOn top') :
      Moves ⟨top, below⟩ ⟨top', below⟩
  | enters {top : Reader} {below : List Reader} {header bytes rest : Bytes}
      (h : top.rest = header ++ (bytes ++ rest)) :
      Moves ⟨top, below⟩ ⟨.window (top.offset + header.length) bytes,
        ⟨top.start, top.pos + header.length + bytes.length, rest⟩ :: below⟩
  | leaves {top next : Reader} {below : List Reader} : Moves ⟨top, next :: below⟩ ⟨next, below⟩

/-! ### One step -/

theorem readTop_eq_ok {x : Decode Reading} {reading : Reading}
    (h : s.readTop x = (.ok reading, s')) :
    ∃ top, x.run s.top = .ok reading top ∧ s' = { s with top } := by
  rw [readTop] at h
  split at h
  · rename_i top hx
    obtain ⟨hreading, rfl⟩ := Prod.mk.inj h
    obtain rfl := Except.ok.inj hreading
    exact ⟨top, hx, rfl⟩
  · exact absurd (Prod.mk.inj h).1 nofun

theorem readTop_eq_error {place : Reader → Reader → Prop} {x : Decode Reading}
    (hx : Stalls place x) {e : DecodeError} (h : s.readTop x = (.error e, s')) :
    ∃ top, place s.top top ∧ s' = { s with top } := by
  rw [readTop] at h
  split at h
  · exact absurd (Prod.mk.inj h).1 nofun
  · rename_i e' top hrun
    obtain ⟨-, rfl⟩ := Prod.mk.inj h
    exact ⟨top, hx hrun, rfl⟩

/-- A step that reads from the window on top reads on in it. -/
theorem moves_of_readTop_eq_ok {x : Decode Reading} (hx : Local x) {reading : Reading}
    (h : s.readTop x = (.ok reading, s')) : s.Moves s' := by
  obtain ⟨top, hrun, rfl⟩ := readTop_eq_ok h
  exact .reads (hx.readsOn hrun)

/-- A step that succeeds moves the readers. -/
theorem moves_of_step_eq_ok {reading : Reading} (h : s.step step = (.ok reading, s')) :
    s.Moves s' := by
  cases step with
  | varint => exact moves_of_readTop_eq_ok (Reader.varint_local.bind fun w => .pure _) h
  | tag => exact moves_of_readTop_eq_ok (Reader.tag_local.bind fun found => .pure _) h
  | take n => exact moves_of_readTop_eq_ok ((Reader.take_local n).bind fun bytes => .pure _) h
  | fixed32 => exact moves_of_readTop_eq_ok (Reader.fixed32_local.bind fun w => .pure _) h
  | fixed64 => exact moves_of_readTop_eq_ok (Reader.fixed64_local.bind fun w => .pure _) h
  | delimited =>
    exact moves_of_readTop_eq_ok (Reader.delimited_local.bind fun bytes => .pure _) h
  | skip wireType =>
    exact moves_of_readTop_eq_ok ((Reader.skip_local wireType).bind fun _ => .pure _) h
  | enter =>
    rw [Session.step, enter] at h
    split at h
    · rename_i inner top henter
      obtain ⟨-, rfl⟩ := Prod.mk.inj h
      obtain ⟨header, bytes, rest, hrest, rfl, rfl⟩ := Reader.exists_of_run_enter henter
      exact .enters hrest
    · exact absurd (Prod.mk.inj h).1 nofun
  | leave =>
    obtain ⟨-, rfl⟩ := Prod.mk.inj h
    obtain ⟨top, _ | ⟨next, below⟩⟩ := s
    · exact .reads (.refl top)
    · exact .leaves

/-- What a step that fails can leave: the session as it was or, where a varint leads what was to be
read, with the cursor exactly behind that varint. -/
def Stalled (step : Step) (s s' : Session) : Prop :=
  s' = s ∨ step.hasLead = true ∧ ∃ word length,
    Varint.decode s.top.rest = some (word, length) ∧ s' = { s with top := s.top.advance length }

theorem stalled_of_keepsPlace {x : Decode Reading} (hx : KeepsPlace x) {e : DecodeError}
    (h : s.readTop x = (.error e, s')) : Stalled step s s' := by
  obtain ⟨top, rfl, rfl⟩ := readTop_eq_error hx h
  exact .inl rfl

theorem stalled_of_atLead (hlead : step.hasLead = true) {top : Reader} (h : s.top.AtLead top) :
    Stalled step s { s with top } := by
  rcases h with rfl | ⟨word, length, hdecode, rfl⟩
  · exact .inl rfl
  · exact .inr ⟨hlead, word, length, hdecode, rfl⟩

theorem stalled_of_stallsAtLead (hlead : step.hasLead = true) {x : Decode Reading}
    (hx : StallsAtLead x) {e : DecodeError} (h : s.readTop x = (.error e, s')) :
    Stalled step s s' := by
  obtain ⟨top, htop, rfl⟩ := readTop_eq_error hx h
  exact stalled_of_atLead hlead htop

/-- **A step that fails leaves the session as it was, or behind the varint it read.** -/
theorem stalled_of_step_eq_error {e : DecodeError} (h : s.step step = (.error e, s')) :
    Stalled step s s' := by
  cases step with
  | varint => exact stalled_of_keepsPlace (Reader.varint_keepsPlace.map _) h
  | take n => exact stalled_of_keepsPlace ((Reader.take_keepsPlace n).map _) h
  | fixed32 => exact stalled_of_keepsPlace (Reader.fixed32_keepsPlace.map _) h
  | fixed64 => exact stalled_of_keepsPlace (Reader.fixed64_keepsPlace.map _) h
  | leave => exact absurd (Prod.mk.inj h).1 nofun
  | tag => exact stalled_of_stallsAtLead rfl (Reader.tag_stallsAtLead.map _) h
  | delimited => exact stalled_of_stallsAtLead rfl (Reader.delimited_stallsAtLead.map _) h
  | skip wireType =>
    exact stalled_of_stallsAtLead rfl ((Reader.skip_stallsAtLead wireType).map _) h
  | enter =>
    rw [Session.step, enter] at h
    split at h
    · exact absurd (Prod.mk.inj h).1 nofun
    · rename_i henter
      obtain ⟨-, rfl⟩ := Prod.mk.inj h
      exact stalled_of_atLead rfl (Reader.enter_stallsAtLead henter)

/-- What a step that fails leaves is no more than a window that was read on in. -/
theorem Stalled.moves (h : Stalled step s s') : s.Moves s' := by
  obtain ⟨top, below⟩ := s
  rcases h with rfl | ⟨-, word, length, hdecode, rfl⟩
  · exact .reads (.refl top)
  · exact .reads (Reader.AtLead.readsOn (.inr ⟨word, length, hdecode, rfl⟩))

/-- **Every step moves the readers**, whether it fails or not. -/
theorem moves_step (s : Session) (step : Step) : s.Moves (s.step step).2 := by
  cases h : s.step step with
  | mk result s' =>
    cases result with
    | ok reading => exact moves_of_step_eq_ok h
    | error e => exact (stalled_of_step_eq_error h).moves

/-! ### What every move preserves -/

/-- **The readers of a session are nested windows of the input**: each of them is a window of it,
and each ends where the cursor of the next one is. -/
structure Nested (input : Bytes) (s : Session) : Prop where
  windows : ∀ r ∈ s.stack, r.IsWindow input
  ends : s.stack.IsChain fun inner outer => inner.start + inner.size = outer.offset

theorem nested_ofBytes (input : Bytes) : (ofBytes input).Nested input where
  windows r hr := by
    obtain rfl := List.mem_singleton.1 hr
    exact Reader.isWindow_iff.2 ⟨[], [], (List.append_nil input).symm, rfl⟩
  ends := .singleton _

/-- Reading on in the window on top keeps the readers nested. -/
theorem Nested.reads {top top' : Reader} {below : List Reader} (h : Nested input ⟨top, below⟩)
    (hreads : top.ReadsOn top') : Nested input ⟨top', below⟩ where
  windows r hr := by
    rcases List.mem_cons.1 hr with rfl | hbelow
    · exact (h.windows top List.mem_cons_self).readsOn hreads
    · exact h.windows r (List.mem_cons_of_mem top hbelow)
  ends := by
    obtain ⟨hend, hbelow⟩ := List.isChain_cons.1 h.ends
    obtain ⟨hstart, hsize, -⟩ := hreads.same_window
    refine List.isChain_cons.2 ⟨fun next hnext => ?_, hbelow⟩
    rw [hstart, hsize]
    exact hend next hnext

/-- **A move keeps the readers nested.** -/
theorem Nested.moves (h : s.Nested input) (hmoves : s.Moves s') : s'.Nested input := by
  cases hmoves with
  | reads hreads => exact h.reads hreads
  | @enters top below header bytes rest hrest =>
    obtain ⟨hwindows, hends⟩ := h.reads (Reader.readsOn_of_rest_eq hrest)
    refine ⟨fun r hr => ?_, List.isChain_cons_cons.2 ⟨?_, hends⟩⟩
    · rcases List.mem_cons.1 hr with rfl | houter
      · exact (h.windows top List.mem_cons_self).window hrest
      · exact hwindows r houter
    · simp only [Reader.window, Reader.size, Reader.offset]
      omega
  | @leaves top next below =>
    exact ⟨fun r hr => h.windows r (List.mem_cons_of_mem top hr),
      (List.isChain_cons_cons.1 h.ends).2⟩

/-- **However many steps a session takes, its readers are nested windows of the input.** -/
theorem nested_after (input : Bytes) (steps : List Step) :
    ((ofBytes input).after steps).Nested input := by
  induction steps using List.reverseRecOn with
  | nil => exact nested_ofBytes input
  | append_singleton steps step ih =>
    rw [after, List.foldl_concat]
    exact ih.moves (moves_step _ step)

/-- Two stacks that differ in one reader, which has read on, and above which one of them ends: a
reader that is in both has read on. -/
theorem readsOn_of_getElem? {base above above' : List Reader} {x x' r r' : Reader} {i : Nat}
    (hreads : x.ReadsOn x') (habove : above = [] ∨ above' = [])
    (hr : (base ++ x :: above)[i]? = some r) (hr' : (base ++ x' :: above')[i]? = some r') :
    r.ReadsOn r' := by
  -- Below the reader that differs the stacks are one, and above it one of them has ended.
  rcases Nat.lt_or_ge i base.length with hlt | hge
  · rw [List.getElem?_append_left hlt] at hr hr'
    obtain rfl := Option.some.inj (hr.symm.trans hr')
    exact .refl r
  · rw [List.getElem?_append_right hge] at hr hr'
    cases hi : i - base.length with
    | zero =>
      rw [hi] at hr hr'
      obtain rfl := Option.some.inj hr
      obtain rfl := Option.some.inj hr'
      exact hreads
    | succ n =>
      rw [hi, List.getElem?_cons_succ] at hr hr'
      rcases habove with rfl | rfl
      · exact absurd hr nofun
      · exact absurd hr' nofun

/-- **No move takes a reader back**: each reader that stays keeps its window and reads on. -/
theorem Moves.readsOn (h : s.Moves s') {height : Nat} {r r' : Reader}
    (hr : s.readerAt height = some r) (hr' : s'.readerAt height = some r') : r.ReadsOn r' := by
  rw [readerAt, stack, List.reverse_cons] at hr hr'
  cases h with
  | reads hreads => exact readsOn_of_getElem? hreads (.inl rfl) hr hr'
  | enters hrest =>
    rw [List.reverse_cons, List.append_assoc] at hr'
    exact readsOn_of_getElem? (Reader.readsOn_of_rest_eq hrest) (.inl rfl) hr hr'
  | @leaves top next below =>
    rw [List.reverse_cons, List.append_assoc] at hr
    exact readsOn_of_getElem? (.refl next) (.inr rfl) hr hr'

/-- **The readers of a session stay nested windows of its input, and none goes back.**  After any
steps, whether they failed or not, every reader is over a window of the input and ends where the
cursor of the one below it is.  From there, whatever step comes next, each reader that stays keeps
its window and its cursor does not go back; and a step that fails leaves the session as it was, or,
where a varint leads what was to be read, with the cursor exactly behind that varint. -/
theorem windows_stay_nested {steps : List Step} (hs : (ofBytes input).after steps = s) :
    s.Nested input ∧
    ∀ step : Step,
      (∀ (height : Nat) (r r' : Reader), s.readerAt height = some r →
        (s.step step).2.readerAt height = some r' →
          r'.start = r.start ∧ r'.size = r.size ∧ r.pos ≤ r'.pos) ∧
      ∀ (e : DecodeError) (s' : Session), s.step step = (.error e, s') →
        s' = s ∨ step.hasLead = true ∧ ∃ word length,
          Varint.decode s.top.rest = some (word, length) ∧
            s' = { s with top := s.top.advance length } :=
  ⟨hs ▸ nested_after input steps, fun step =>
    ⟨fun _ _ _ hr hr' => ((moves_step s step).readsOn hr hr').same_window,
      fun _ _ h => stalled_of_step_eq_error h⟩⟩

/-- In a payload of two bytes, a length of eight: the payload cannot be entered, and the cursor is
left behind the length, in the same window. -/
theorem windows_stay_nested_at_cut_payload :
    Nested [10, 2, 8, 5, 7, 9] ⟨⟨2, 0, [8, 5]⟩, [⟨0, 4, [7, 9]⟩]⟩ ∧
    Session.step ⟨⟨2, 0, [8, 5]⟩, [⟨0, 4, [7, 9]⟩]⟩ .enter
      = (.error (.truncated 3 8 1), ⟨⟨2, 1, [5]⟩, [⟨0, 4, [7, 9]⟩]⟩) ∧
    (Reader.mk 2 1 [5]).size = (Reader.mk 2 0 [8, 5]).size ∧
    ∃ word length, Varint.decode [8, 5] = some (word, length) ∧
      (⟨⟨2, 1, [5]⟩, [⟨0, 4, [7, 9]⟩]⟩ : Session)
        = ⟨(Reader.mk 2 0 [8, 5]).advance length, [⟨0, 4, [7, 9]⟩]⟩ := by
  have hs : (ofBytes [10, 2, 8, 5, 7, 9]).after [.tag, .enter]
      = ⟨⟨2, 0, [8, 5]⟩, [⟨0, 4, [7, 9]⟩]⟩ := rfl
  have hfails : Session.step ⟨⟨2, 0, [8, 5]⟩, [⟨0, 4, [7, 9]⟩]⟩ .enter
      = (.error (.truncated 3 8 1), ⟨⟨2, 1, [5]⟩, [⟨0, 4, [7, 9]⟩]⟩) := rfl
  obtain ⟨hnested, hstep⟩ := windows_stay_nested hs
  obtain ⟨hkeeps, hfail⟩ := hstep .enter
  exact ⟨hnested, hfails, (hkeeps 1 ⟨2, 0, [8, 5]⟩ ⟨2, 1, [5]⟩ rfl rfl).2.1,
    ((hfail _ _ hfails).resolve_left (by decide)).2⟩

end Session

end Protowire
