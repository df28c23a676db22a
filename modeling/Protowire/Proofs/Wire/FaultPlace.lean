import Protowire.Proofs.Wire.Shift

/-!
# Proofs/Wire/FaultPlace — a fault is where it says, within the bytes that were to be read

The place of a fault counts from the start of the outermost input, and a reader split off for a
payload keeps its place.  So a computation that starts within a stretch of the input, and may not
read beyond it, **faults within** that stretch (`Decode.FaultsWithin`), on every level.
-/

namespace Protowire

/-- The place of the fault, if it has one, is from `lo` to `hi`.  A truncated payload needs more
bytes than are left, and those that are left end at `hi` or before. -/
def DecodeError.Within (lo hi : Nat) : DecodeError → Prop
  | malformedVarint offset | unsupportedWireType _ offset | invalidFieldNumber _ offset
  | invalidUtf8 offset | nestedTooDeep offset => lo ≤ offset ∧ offset ≤ hi
  | truncated offset needed remaining =>
    lo ≤ offset ∧ remaining < needed ∧ offset + remaining ≤ hi
  | wireTypeMismatch _ _ => True

namespace DecodeError.Within

variable {lo hi : Nat} {e : DecodeError}

theorem le_offset (h : e.Within lo hi) {offset : Nat} (he : e.offset? = some offset) :
    lo ≤ offset ∧ offset ≤ hi := by
  cases e with
  | wireTypeMismatch => exact absurd he nofun
  | truncated o needed remaining =>
    obtain rfl := Option.some.inj he
    exact ⟨h.1, Nat.le_trans (Nat.le_add_right _ remaining) h.2.2⟩
  | malformedVarint | unsupportedWireType | invalidFieldNumber | invalidUtf8 | nestedTooDeep =>
    obtain rfl := Option.some.inj he
    exact h

end DecodeError.Within

/-- A result whose fault, if it is one, is within these places. -/
def FaultsWithin {α : Type} (lo hi : Nat) (x : Except DecodeError α) : Prop :=
  ∀ e, x = .error e → e.Within lo hi

namespace FaultsWithin

variable {α β : Type} {lo hi : Nat} {x : Except DecodeError α}

theorem ok (a : α) : FaultsWithin lo hi (.ok a) := nofun

theorem error {e : DecodeError} (h : e.Within lo hi) :
    FaultsWithin lo hi (.error e : Except DecodeError α) := by
  rintro e' he
  exact Except.error.inj he ▸ h

theorem map (h : FaultsWithin lo hi x) (f : α → β) : FaultsWithin lo hi (f <$> x) := by
  cases x with
  | error e => exact .error (h e rfl)
  | ok a => exact .ok (f a)

theorem bind {f : α → Except DecodeError β} (h : FaultsWithin lo hi x)
    (hf : ∀ a, FaultsWithin lo hi (f a)) : FaultsWithin lo hi (x >>= f) := by
  cases x with
  | error e => exact .error (h e rfl)
  | ok a => exact hf a

end FaultsWithin

/-- The cursor and the bytes that are left lie within these places. -/
structure Reader.InWindow (lo hi : Nat) (r : Reader) : Prop where
  le_offset : lo ≤ r.offset
  end_le : r.offset + r.remaining ≤ hi

/-- The payload lies within these places, with what stands in front of its body. -/
structure Occurrence.InWindow (lo hi : Nat) (o : Occurrence) : Prop where
  le_offset : lo ≤ o.offset
  offset_le : o.offset ≤ hi
  body : ∀ bytes, o.payload = .delimited bytes → (o.window bytes).InWindow lo hi

/-! ## Computations -/

namespace Decode

variable {α β σ : Type} {lo hi : Nat}

/-- Reading on stays within the window. -/
theorem Local.inWindow {x : Decode α} (hx : Local x) {r r' : Reader} {a : α}
    (hr : r.InWindow lo hi) (h : x.run r = .ok a r') : r'.InWindow lo hi := by
  obtain ⟨used, rest, hrest, rfl, -⟩ := hx h
  obtain ⟨hlo, hhi⟩ := hr
  simp only [Reader.remaining, Reader.offset, hrest, List.length_append] at hlo hhi
  constructor <;> simp only [Reader.remaining, Reader.offset] <;> omega

/-- **What reads within these places finds its faults there.** -/
def FaultsWithin (lo hi : Nat) (x : Decode α) : Prop :=
  ∀ ⦃r e r'⦄, r.InWindow lo hi → x.run r = .error e r' → e.Within lo hi

namespace FaultsWithin

variable {x : Decode α} {f : α → Decode β}

theorem ofExcept {x : Except DecodeError α} (h : Protowire.FaultsWithin lo hi x) :
    FaultsWithin lo hi (Decode.ofExcept x) := by
  intro r e r' _ hrun
  cases x with
  | error e' =>
    obtain ⟨rfl, -⟩ := EStateM.Result.error.inj hrun
    exact h e' rfl
  | ok a => exact absurd hrun nofun

theorem pure (a : α) : FaultsWithin lo hi (Pure.pure a) := .ofExcept (.ok a)

/-- The second part of a sequence may rely on what the first part reads within these places. -/
theorem bind_of_run (hx : FaultsWithin lo hi x) (hlocal : Local x)
    (hf : ∀ {r r' : Reader} {a : α}, r.InWindow lo hi → x.run r = .ok a r' →
      FaultsWithin lo hi (f a)) : FaultsWithin lo hi (x >>= f) := by
  intro r e r' hr hrun
  rw [EStateM.run_bind] at hrun
  cases hxr : x.run r with
  | error e' s =>
    rw [hxr] at hrun
    obtain ⟨rfl, -⟩ := EStateM.Result.error.inj hrun
    exact hx hr hxr
  | ok a s =>
    rw [hxr] at hrun
    exact hf hr hxr (hlocal.inWindow hr hxr) hrun

/-- **A sequence finds its faults where its parts find theirs.** -/
theorem bind (hx : FaultsWithin lo hi x) (hlocal : Local x) (hf : ∀ a, FaultsWithin lo hi (f a)) :
    FaultsWithin lo hi (x >>= f) :=
  hx.bind_of_run hlocal fun _ _ => hf _

/-- The offset a computation looks at first is within these places. -/
theorem offset {g : Nat → Decode α} (h : ∀ n, lo ≤ n → n ≤ hi → FaultsWithin lo hi (g n)) :
    FaultsWithin lo hi (get >>= fun r : Reader => g r.offset) :=
  fun r _ _ hr hrun =>
    h r.offset hr.le_offset (Nat.le_trans (Nat.le_add_right _ _) hr.end_le) hr hrun

/-- **Reading on to the end finds its faults where each step finds its own.** -/
theorem untilEmpty {step : σ → Decode σ} (hstep : ∀ s, Consumes (step s))
    (hlocal : ∀ s, Local (step s)) (h : ∀ s, FaultsWithin lo hi (step s)) (s : σ) :
    FaultsWithin lo hi (Reader.untilEmpty step s) := by
  intro r e r' hr hrun
  obtain ⟨front, back, s₁, hrest, -, -, herror⟩ :=
    Reader.exists_front_of_run_untilEmpty_eq_error hstep hlocal hrun
  refine h s₁ ⟨?_, ?_⟩ herror
  · exact Nat.le_trans hr.le_offset (Nat.add_le_add_left (Nat.le_add_right _ _) _)
  · have hend := hr.end_le
    simp only [Reader.remaining, Reader.offset, hrest, List.length_append] at hend ⊢
    omega

/-- A window within these places finds its faults there. -/
theorem runWindow (h : FaultsWithin lo hi x) {r : Reader} (hr : r.InWindow lo hi) :
    Protowire.FaultsWithin lo hi (Reader.runWindow x r) := by
  intro e he
  obtain ⟨r', hrun⟩ := Reader.runWindow_eq_error.1 he
  exact h hr hrun

end FaultsWithin

end Decode

/-! ## The framings -/

namespace Reader

open Decode

variable {lo hi : Nat}

theorem varint_faultsWithin : Decode.FaultsWithin lo hi varint := by
  intro r e r' hr hrun
  obtain ⟨rfl, -⟩ := run_varint_eq_error hrun
  exact ⟨hr.le_offset, Nat.le_trans (Nat.le_add_right _ _) hr.end_le⟩

theorem take_faultsWithin (n : Nat) : Decode.FaultsWithin lo hi (take n) := by
  intro r e r' hr hrun
  obtain ⟨hlt, rfl, -⟩ := run_take_eq_error hrun
  exact ⟨hr.le_offset, hlt, hr.end_le⟩

/-- A tag that stands for nothing is refused where it starts. -/
theorem decode_tag_faultsWithin (key : UInt64) {offset : Nat} (hlo : lo ≤ offset)
    (hhi : offset ≤ hi) : Protowire.FaultsWithin lo hi (Tag.decode key offset) := by
  simp only [Tag.decode]
  split
  · exact .error ⟨hlo, hhi⟩
  · split
    · exact .ok _
    · exact .error ⟨hlo, hhi⟩

theorem tag_faultsWithin : Decode.FaultsWithin lo hi tag := by
  rw [tag_eq]
  exact .offset (g := fun offset => varint >>= fun key =>
      Decode.ofExcept (Tag.decode key offset)) fun offset hlo hhi =>
    varint_faultsWithin.bind varint_local fun key =>
      .ofExcept (decode_tag_faultsWithin key hlo hhi)

theorem occurrence_faultsWithin (wireType : WireType) :
    Decode.FaultsWithin lo hi (occurrence wireType) :=
  occurrence_of_parts (P := Decode.FaultsWithin lo hi) .pure .bind
    (fun h => .offset fun n _ _ => h n) varint_faultsWithin take_faultsWithin wireType

theorem skip_faultsWithin (wireType : WireType) : Decode.FaultsWithin lo hi (skip wireType) := by
  rw [skip_eq]
  exact (occurrence_faultsWithin wireType).bind (occurrence_local wireType) fun _ => .pure ()

/-- The window that is entered lies in the window it was entered from. -/
theorem inWindow_of_run_enter {r r' inner : Reader} (hr : r.InWindow lo hi)
    (h : enter.run r = .ok inner r') : (window inner.start inner.rest).InWindow lo hi := by
  obtain ⟨header, bytes, rest, hrest, rfl, -⟩ := exists_of_run_enter h
  obtain ⟨hlo, hhi⟩ := hr
  simp only [remaining, hrest, List.length_append] at hhi
  constructor <;> simp only [window, offset, remaining] at * <;> omega

/-- A word lies where the reader was, and has no body. -/
theorem inWindow_of_run_word {α : Type} {x : Decode α} {p : α → Payload}
    (hword : ∀ a bytes, p a ≠ .delimited bytes) {r r' : Reader} {o : Occurrence}
    (hr : r.InWindow lo hi)
    (h : (x >>= fun a => pure (Occurrence.mk r.offset r.offset (p a)) : Decode Occurrence).run r
      = .ok o r') : o.InWindow lo hi := by
  obtain ⟨a, s, -, hpure⟩ := run_bind_eq_ok.1 h
  obtain ⟨rfl, rfl⟩ := EStateM.Result.ok.inj hpure
  exact ⟨hr.le_offset, Nat.le_trans (Nat.le_add_right _ _) hr.end_le,
    fun bytes hbytes => absurd hbytes (hword a bytes)⟩

/-- **A payload lies in the window it was read from.** -/
theorem inWindow_of_run_occurrence {wireType : WireType} {r r' : Reader} {o : Occurrence}
    (hr : r.InWindow lo hi) (h : (occurrence wireType).run r = .ok o r') : o.InWindow lo hi := by
  cases wireType with
  | varint => exact inWindow_of_run_word (x := varint) (p := .varint) nofun hr h
  | fixed64 => exact inWindow_of_run_word (x := fixed64) (p := .fixed64) nofun hr h
  | fixed32 => exact inWindow_of_run_word (x := fixed32) (p := .fixed32) nofun hr h
  | lengthDelimited =>
    obtain ⟨inner, s, henter, hpure⟩ := (run_bind_eq_ok (x := enter)
      (f := fun inner => pure (Occurrence.mk r.offset inner.start (.delimited inner.rest)))).1 h
    obtain ⟨rfl, rfl⟩ := EStateM.Result.ok.inj hpure
    refine ⟨hr.le_offset, Nat.le_trans (Nat.le_add_right _ _) hr.end_le, fun bytes hbytes => ?_⟩
    obtain rfl := Payload.delimited.inj hbytes
    exact inWindow_of_run_enter hr henter

end Reader

end Protowire
