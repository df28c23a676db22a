import Protowire.Proofs.Wire.Locality

/-!
# Proofs/Wire/Shift — the same bytes further on are read alike, with offsets moved along

Two cursors with the same bytes left, the second `k` bytes further on, give results that differ in
their offsets alone (`Decode.Shifts`): where one gives a value the other does, and where one finds
a fault the other finds the same fault `k` bytes further on (`DecodeError.shift`).

What was read before a cursor, and where its window starts, plays no part: only the offset is
compared (`Reader.IsShift`).
-/

namespace Protowire

/-- The same fault, found `k` bytes further on. -/
def DecodeError.shift (k : Nat) : DecodeError → DecodeError
  | malformedVarint offset => malformedVarint (offset + k)
  | unsupportedWireType code offset => unsupportedWireType code (offset + k)
  | wireTypeMismatch expected actual => wireTypeMismatch expected actual
  | invalidFieldNumber number offset => invalidFieldNumber number (offset + k)
  | truncated offset needed remaining => truncated (offset + k) needed remaining
  | invalidUtf8 offset => invalidUtf8 (offset + k)
  | nestedTooDeep offset => nestedTooDeep (offset + k)

/-- The same payload, found `k` bytes further on. -/
def Occurrence.shift (k : Nat) (o : Occurrence) : Occurrence :=
  { o with offset := o.offset + k, body := o.body + k }

/-- `s` has the same bytes left as `r` and is `k` bytes further on. -/
structure Reader.IsShift (k : Nat) (r s : Reader) : Prop where
  rest : s.rest = r.rest
  offset : s.offset = r.offset + k

namespace Reader.IsShift

variable {k : Nat} {r s : Reader}

/-- Reading on by the same number of bytes keeps two cursors apart as they are. -/
theorem advance (h : IsShift k r s) (n : Nat) : IsShift k (r.advance n) (s.advance n) where
  rest := congrArg (List.drop n) h.rest
  offset := by
    have := h.offset
    simp only [Reader.advance, Reader.offset] at *
    omega

/-- The payloads of two cursors have windows that are as far apart. -/
theorem window (k start : Nat) (bytes : Bytes) :
    IsShift k (Reader.window start bytes) (Reader.window (start + k) bytes) :=
  ⟨rfl, rfl⟩

end Reader.IsShift

namespace Decode

variable {α β γ δ σ : Type} {k : Nat}

/-- A result that `f` takes over, or the same fault `k` bytes further on. -/
inductive Shifted (k : Nat) (f : α → β) :
    EStateM.Result DecodeError Reader α → EStateM.Result DecodeError Reader β → Prop where
  | ok (a : α) {r s : Reader} (h : r.IsShift k s) : Shifted k f (.ok a r) (.ok (f a) s)
  | error (e : DecodeError) (r s : Reader) : Shifted k f (.error e r) (.error (e.shift k) s)

/-- **`y` does `k` bytes further on what `x` does**, with values taken over by `f`. -/
def Shifts (k : Nat) (f : α → β) (x : Decode α) (y : Decode β) : Prop :=
  ∀ ⦃r s : Reader⦄, r.IsShift k s → Shifted k f (x.run r) (y.run s)

theorem Shifts.pure (f : α → β) (a : α) : Shifts k f (Pure.pure a) (Pure.pure (f a)) :=
  fun _ _ h => .ok a h

/-- A finished result, in which the offset of a fault counts from further on. -/
theorem Shifts.ofExcept {x y : Except DecodeError α} (h : y = x.mapError (·.shift k)) :
    Shifts k id (Decode.ofExcept x) (Decode.ofExcept y) := by
  subst h
  intro r s hrs
  cases x with
  | ok a => exact .ok a hrs
  | error e => exact .error e r s

/-- **Sequences shift when their parts do.** -/
theorem Shifts.bind {f : α → β} {g : γ → δ} {x : Decode α} {y : Decode β} {F : α → Decode γ}
    {G : β → Decode δ} (hx : Shifts k f x y) (hF : ∀ a, Shifts k g (F a) (G (f a))) :
    Shifts k g (x >>= F) (y >>= G) := by
  intro r s hrs
  have h := hx hrs
  rw [EStateM.run_bind, EStateM.run_bind]
  generalize x.run r = a at h
  generalize y.run s = b at h
  cases h with
  | ok a h => exact hF a h
  | error e r' s' => exact .error e r' s'

/-- The offset a computation looks at is `k` larger. -/
theorem Shifts.offset {f : α → α} (F : Nat → Decode α) (h : ∀ n, Shifts k f (F n) (F (n + k))) :
    Shifts k f (get >>= fun r : Reader => F r.offset) (get >>= fun r : Reader => F r.offset) := by
  intro r s hrs
  have := h r.offset hrs
  rw [← hrs.offset] at this
  exact this

/-- **Reading on to the end shifts when each step does.** -/
theorem Shifts.untilEmpty {step : σ → Decode σ} (h : ∀ s, Shifts k id (step s) (step s)) (s : σ) :
    Shifts k id (Reader.untilEmpty step s) (Reader.untilEmpty step s) := by
  have repeated : ∀ fuel s, Shifts k id (Reader.repeatUpTo step fuel s)
      (Reader.repeatUpTo step fuel s) := by
    intro fuel
    induction fuel with
    | zero => exact fun s => .pure id s
    | succ fuel ih =>
      intro s r₁ r₂ hr
      rw [Reader.run_repeatUpTo_succ, Reader.run_repeatUpTo_succ, Reader.isEmpty, Reader.isEmpty,
        hr.rest]
      split
      · exact .ok s hr
      · exact (h s).bind ih hr
  intro r₁ r₂ hr
  change Shifted k id ((Reader.repeatUpTo step r₁.rest.length s).run r₁)
    ((Reader.repeatUpTo step r₂.rest.length s).run r₂)
  rw [hr.rest]
  exact repeated r₁.rest.length s hr

/-- **A window further on gives the same result, with the offset of a fault moved along.** -/
theorem Shifts.runWindow {x y : Decode α} (h : Shifts k id x y) {r s : Reader}
    (hrs : r.IsShift k s) :
    Reader.runWindow y s = (Reader.runWindow x r).mapError (·.shift k) := by
  have := h hrs
  rw [Reader.runWindow, Reader.runWindow]
  generalize x.run r = a at this
  generalize y.run s = b at this
  cases this with
  | ok a _ => rfl
  | error e _ _ => rfl

end Decode

/-! ## The framings -/

namespace Reader

open Decode

variable (k : Nat)

theorem varint_shifts : Shifts k id varint varint := by
  intro r s h
  simp only [varint, EStateM.run]
  rw [h.rest, h.offset]
  split
  · exact .ok _ (h.advance _)
  · exact .error _ r s

theorem take_shifts (n : Nat) : Shifts k id (take n) (take n) := by
  intro r s h
  have hlen : s.remaining = r.remaining := congrArg List.length h.rest
  change Shifted k id (if n ≤ r.remaining then .ok (r.rest.take n) (r.advance n)
      else .error (.truncated r.offset n r.remaining) r)
    (if n ≤ s.remaining then .ok (s.rest.take n) (s.advance n)
      else .error (.truncated s.offset n s.remaining) s)
  rw [hlen, h.rest, h.offset]
  split
  · exact .ok _ (h.advance n)
  · exact .error _ r s

theorem fixed32_shifts : Shifts k id fixed32 fixed32 :=
  (take_shifts k 4).bind fun bytes => .pure id (UInt32.ofNat bytes.toNat)

theorem fixed64_shifts : Shifts k id fixed64 fixed64 :=
  (take_shifts k 8).bind fun bytes => .pure id (UInt64.ofNat bytes.toNat)

/-- The window a reader enters lies as much further on as the reader. -/
theorem enter_shifts :
    Shifts k (fun r => Reader.mk (r.start + k) r.pos r.rest) enter enter :=
  (varint_shifts k).bind fun length =>
    .offset (fun start => do return window start (← take length.toNat)) fun start =>
      (take_shifts k length.toNat).bind fun bytes =>
        .pure (fun r => Reader.mk (r.start + k) r.pos r.rest) (window start bytes)

/-- What a tag stands for does not depend on where it is. -/
theorem decode_tag_add (key : UInt64) (offset : Nat) :
    Tag.decode key (offset + k) = (Tag.decode key offset).mapError (·.shift k) := by
  simp only [Tag.decode]
  split
  · rfl
  · split <;> rfl

theorem tag_shifts : Shifts k id tag tag := by
  rw [tag_eq]
  exact .offset (fun offset => do Decode.ofExcept (Tag.decode (← varint) offset)) fun offset =>
    (varint_shifts k).bind fun key => .ofExcept (decode_tag_add k key offset)

/-- **Every framing is read alike further on.** -/
theorem occurrence_shifts (wireType : WireType) :
    Shifts k (Occurrence.shift k) (occurrence wireType) (occurrence wireType) := by
  cases wireType with
  | varint =>
    exact .offset (fun offset => do return Occurrence.mk offset offset (.varint (← varint)))
      fun offset =>
      (varint_shifts k).bind fun w =>
        .pure (Occurrence.shift k) (Occurrence.mk offset offset (.varint w))
  | fixed64 =>
    exact .offset (fun offset => do return Occurrence.mk offset offset (.fixed64 (← fixed64)))
      fun offset =>
      (fixed64_shifts k).bind fun w =>
        .pure (Occurrence.shift k) (Occurrence.mk offset offset (.fixed64 w))
  | fixed32 =>
    exact .offset (fun offset => do return Occurrence.mk offset offset (.fixed32 (← fixed32)))
      fun offset =>
      (fixed32_shifts k).bind fun w =>
        .pure (Occurrence.shift k) (Occurrence.mk offset offset (.fixed32 w))
  | lengthDelimited =>
    exact .offset (fun offset => do
        let inner ← enter
        return Occurrence.mk offset inner.start (.delimited inner.rest)) fun offset =>
      (enter_shifts k).bind fun inner =>
        .pure (Occurrence.shift k) (Occurrence.mk offset inner.start (.delimited inner.rest))

theorem skip_shifts (wireType : WireType) : Shifts k id (skip wireType) (skip wireType) := by
  rw [skip_eq]
  exact (occurrence_shifts k wireType).bind fun _ => .pure id ()

/-! ## Windows -/

/-- A window whose computation gives a value has been run to some cursor. -/
theorem runWindow_eq_ok {α : Type} {x : Decode α} {r : Reader} {a : α} :
    runWindow x r = .ok a ↔ ∃ r', x.run r = .ok a r' := by
  rw [runWindow]
  constructor
  · intro h
    split at h
    · rename_i b r' hx
      obtain rfl := Except.ok.inj h
      exact ⟨r', hx⟩
    · exact absurd h nofun
  · rintro ⟨r', hx⟩
    rw [hx]

theorem runWindow_eq_error {α : Type} {x : Decode α} {r : Reader} {e : DecodeError} :
    runWindow x r = .error e ↔ ∃ r', x.run r = .error e r' := by
  rw [runWindow]
  constructor
  · intro h
    split at h
    · exact absurd h nofun
    · rename_i e' r' hx
      obtain rfl := Except.error.inj h
      exact ⟨r', hx⟩
  · rintro ⟨r', hx⟩
    rw [hx]

/-- What is made of the value at the end may be made of it outside the window. -/
theorem runWindow_map {α β : Type} (x : Decode α) (f : α → β) (r : Reader) :
    runWindow (x >>= fun a => pure (f a)) r = f <$> runWindow x r := by
  rw [runWindow, runWindow, EStateM.run_bind]
  cases x.run r <;> rfl

/-- What moves along gives the same value and leaves the same bytes wherever it stands. -/
theorem exists_run_of_rest_eq {α : Type} {x : Decode α} (hshift : ∀ k, Shifts k id x x)
    {r s r' : Reader} {a : α} (hrest : s.rest = r.rest) (h : x.run r = .ok a r') :
    ∃ s', x.run s = .ok a s' ∧ s'.rest = r'.rest := by
  rcases Nat.le_total r.offset s.offset with hle | hle
  · have hmoved : r.IsShift (s.offset - r.offset) s := ⟨hrest, (Nat.add_sub_of_le hle).symm⟩
    have hruns := hshift _ hmoved
    rw [h] at hruns
    generalize x.run s = result at hruns
    cases hruns with
    | ok _ hend => exact ⟨_, rfl, hend.rest⟩
  · have hmoved : s.IsShift (r.offset - s.offset) r :=
      ⟨hrest.symm, (Nat.add_sub_of_le hle).symm⟩
    have hruns := hshift _ hmoved
    rw [h] at hruns
    generalize x.run s = result at hruns
    cases hruns with
    | ok _ hend => exact ⟨_, rfl, hend.rest.symm⟩

/-- **Whether a window gives a value, and which, depends on its bytes alone.** -/
theorem runWindow_eq_ok_iff_of_rest_eq {α : Type} {x : Decode α} (hshift : ∀ k, Shifts k id x x)
    {r s : Reader} {a : α} (hrest : s.rest = r.rest) :
    runWindow x s = .ok a ↔ runWindow x r = .ok a := by
  rw [runWindow_eq_ok, runWindow_eq_ok]
  constructor
  · rintro ⟨s', h⟩
    obtain ⟨r', hr, -⟩ := exists_run_of_rest_eq hshift hrest.symm h
    exact ⟨r', hr⟩
  · rintro ⟨r', h⟩
    obtain ⟨s', hs, -⟩ := exists_run_of_rest_eq hshift hrest h
    exact ⟨s', hs⟩

variable {σ : Type} {step : σ → Decode σ}

/-- Behind `a` a loop stands where it would stand alone, with `b` left to read. -/
theorem run_untilEmpty_append (hstep : ∀ s, Consumes (step s)) (hlocal : ∀ s, Local (step s))
    {s s' : σ} {start : Nat} {a : Bytes}
    (h : runWindow (untilEmpty step s) (window start a) = .ok s') (b : Bytes) :
    (untilEmpty step s).run (window start (a ++ b))
      = (untilEmpty step s').run ⟨start, a.length, b⟩ := by
  obtain ⟨r', hrun⟩ := runWindow_eq_ok.1 h
  have hex := (run_untilEmpty_eq_ok hstep).1 hrun
  obtain rfl : r' = ⟨start, 0 + a.length, []⟩ := hex.eq_end hlocal
  have hext := hex.run_untilEmpty_extend hstep hlocal b
  rw [Nat.zero_add] at hext
  exact hext

/-- **Reading `a ++ b` to the end is reading `a` and then `b`**, with a fault in `b` moved along. -/
theorem runWindow_untilEmpty_append (hstep : ∀ s, Consumes (step s))
    (hlocal : ∀ s, Local (step s)) {s s' : σ} {start : Nat} {a : Bytes}
    (hshift : ∀ s, Shifts a.length id (step s) (step s))
    (h : runWindow (untilEmpty step s) (window start a) = .ok s') (b : Bytes) :
    runWindow (untilEmpty step s) (window start (a ++ b))
      = (runWindow (untilEmpty step s') (window start b)).mapError (·.shift a.length) := by
  have hmoved : IsShift a.length (window start b) ⟨start, a.length, b⟩ := ⟨rfl, rfl⟩
  rw [← (Shifts.untilEmpty hshift s').runWindow hmoved, runWindow, runWindow,
    run_untilEmpty_append hstep hlocal h b]

end Reader

end Protowire
