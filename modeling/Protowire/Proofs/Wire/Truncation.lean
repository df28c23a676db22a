import Protowire.Proofs.Wire.Fields

/-!
# Proofs/Wire/Truncation — bytes that break off do not pass for shorter ones

A computation **detects cuts** (`Decode.DetectsCuts`) when, given only a part of the bytes it takes
from the front, it fails for want of the others.  Every framing does, and a sequence does when its
parts do (`DetectsCuts.bind`): a cut lies within the bytes of one of them, and what is read before
it is read as before.
-/

namespace Protowire

namespace DecodeError

/-- Is this a fault that an input has which ends too early? -/
def isCutOff : DecodeError → Bool
  | malformedVarint _ | truncated _ _ _ => true
  | _ => false

/-- The input ends too early, and the place of the fault is from `lo` to `hi`. -/
def CutOffWithin (lo hi : Nat) (e : DecodeError) : Prop :=
  e.isCutOff = true ∧ ∃ offset, e.offset? = some offset ∧ lo ≤ offset ∧ offset ≤ hi

theorem CutOffWithin.mono {lo lo' hi hi' : Nat} {e : DecodeError} (h : e.CutOffWithin lo hi)
    (hlo : lo' ≤ lo) (hhi : hi ≤ hi') : e.CutOffWithin lo' hi' := by
  obtain ⟨hcut, offset, hoffset, hle, hge⟩ := h
  exact ⟨hcut, offset, hoffset, Nat.le_trans hlo hle, Nat.le_trans hge hhi⟩

end DecodeError

namespace Decode

variable {α β : Type}

/-- **With some of its bytes cut off at the end a read fails for want of them**, no earlier than
where it starts and no later than where the bytes end. -/
def DetectsCuts (x : Decode α) : Prop :=
  ∀ ⦃start pos : Nat⦄ ⦃front back : Bytes⦄ ⦃a : α⦄,
    x.run ⟨start, pos, front ++ back⟩ = .ok a ⟨start, pos + (front ++ back).length, []⟩ →
    back ≠ [] → ∃ e r, x.run ⟨start, pos, front⟩ = .error e r ∧
      e.CutOffWithin (start + pos) (start + pos + front.length)

/-- Of a read that takes no bytes nothing can be cut off. -/
theorem DetectsCuts.ofExcept (x : Except DecodeError α) : DetectsCuts (Decode.ofExcept x) := by
  intro start pos front back a h hback
  obtain ⟨-, hend⟩ := run_ofExcept_eq_ok.1 h
  exact absurd (List.append_eq_nil_iff.1 (congrArg Reader.rest hend).symm).2 hback

theorem DetectsCuts.pure (a : α) : DetectsCuts (Pure.pure a) := .ofExcept (.ok a)

/-- **A sequence detects cuts when its parts do.** -/
theorem DetectsCuts.bind {x : Decode α} {f : α → Decode β} (hx : DetectsCuts x) (hlocal : Local x)
    (hf : ∀ a, DetectsCuts (f a)) : DetectsCuts (x >>= f) := by
  intro start pos front back b h hback
  obtain ⟨a, s, hxr, hfs⟩ := run_bind_eq_ok.1 h
  obtain ⟨used, rest, hsplit, rfl, htail⟩ := hlocal hxr
  -- The cut is behind what the first part takes.
  have second : ∀ middle, front = used ++ middle → rest = middle ++ back →
      ∃ e r, (x >>= f).run ⟨start, pos, front⟩ = .error e r ∧
        e.CutOffWithin (start + pos) (start + pos + front.length) := by
    rintro middle rfl rfl
    have hrest : (f a).run ⟨start, pos + used.length, middle ++ back⟩
        = .ok b ⟨start, pos + used.length + (middle ++ back).length, []⟩ := by
      rwa [List.append_assoc, List.length_append, ← Nat.add_assoc] at hfs
    obtain ⟨e, r, herror, hwithin⟩ := hf a hrest hback
    refine ⟨e, r, (run_bind_of_ok (htail middle)).trans herror, hwithin.mono (by omega) ?_⟩
    rw [List.length_append]
    omega
  rcases List.append_eq_append_iff.1 hsplit with ⟨cut, rfl, rfl⟩ | ⟨middle, hfront, hrest⟩
  · by_cases hcut : cut = []
    · exact second [] (by rw [hcut, List.append_nil, List.append_nil]) (by rw [hcut]; rfl)
    · have hused := htail []
      rw [List.append_nil] at hused
      obtain ⟨e, r, herror, hwithin⟩ := hx hused hcut
      exact ⟨e, r, run_bind_of_error herror, hwithin⟩
  · exact second middle hfront hrest

/-- A read that only looks at the offset first detects cuts as it does behind that. -/
theorem DetectsCuts.offset {f : Nat → Decode α} (hf : ∀ n, DetectsCuts (f n)) :
    DetectsCuts (get >>= fun r : Reader => f r.offset) :=
  fun start pos _ _ _ h hback => hf (start + pos) h hback

end Decode

/-! ## The framings -/

namespace Reader

open Decode

theorem varint_detectsCuts : DetectsCuts varint := by
  intro start pos front back word h hback
  obtain ⟨length, hdecode, hend⟩ := run_varint_eq_ok.1 h
  have hlength : pos + (front ++ back).length = pos + length := congrArg Reader.pos hend
  rw [← Nat.add_left_cancel hlength] at hdecode
  refine ⟨.malformedVarint (start + pos), ⟨start, pos, front⟩, ?_, rfl, start + pos, rfl,
    Nat.le_refl _, Nat.le_add_right _ _⟩
  simp only [varint, EStateM.run, Varint.decode_eq_none_of_cut hdecode hback, offset]

theorem take_detectsCuts (n : Nat) : DetectsCuts (take n) := by
  intro start pos front back bytes h hback
  obtain ⟨rest, rfl, hbytes, hend⟩ := exists_of_run_take h
  obtain rfl : [] = rest := congrArg Reader.rest hend
  have hlength : (front ++ back).length = bytes.length := by
    rw [show front ++ back = bytes ++ [] from hbytes, List.append_nil]
  have hpos := List.length_pos_iff.2 hback
  have hshort : ¬ bytes.length ≤ front.length := by
    rw [List.length_append] at hlength
    omega
  exact ⟨.truncated (start + pos) bytes.length front.length, ⟨start, pos, front⟩, if_neg hshort,
    rfl, start + pos, rfl, Nat.le_refl _, Nat.le_add_right _ _⟩

theorem tag_detectsCuts : DetectsCuts tag := by
  rw [tag_eq]
  exact .offset (f := fun offset => varint >>= fun key =>
      Decode.ofExcept (Tag.decode key offset)) fun offset =>
    varint_detectsCuts.bind varint_local fun key => .ofExcept (Tag.decode key offset)

/-- **Every payload that is cut short is refused.** -/
theorem occurrence_detectsCuts (wireType : WireType) : DetectsCuts (occurrence wireType) :=
  occurrence_of_parts .pure .bind .offset varint_detectsCuts take_detectsCuts wireType

/-! ## Loops over fields -/

variable {σ : Type} {step : σ → Decode σ}

/-- **A loop whose last field is cut short fails there**: what comes before the field is read, and
its step does not find all of the field. -/
theorem FieldStep.exists_error_of_cut (h : FieldStep step) (hcuts : ∀ s, DetectsCuts (step s))
    {s s₁ s₂ : σ} {before front back : Bytes} (hbefore : Leads step before s s₁)
    (hreads : Reads (step s₁) (front ++ back) s₂) (hfront : front ≠ []) (hback : back ≠ []) :
    ∃ e, runWindow (untilEmpty step s) (ofBytes (before ++ front)) = .error e ∧
      e.CutOffWithin before.length (before ++ front).length := by
  have hfield := hreads before.length 0 before.length [] (Nat.zero_add _)
  rw [List.append_nil] at hfield
  obtain ⟨e, r, herror, hwithin⟩ := hcuts s₁ hfield hback
  rw [Nat.zero_add, ← List.length_append] at hwithin
  refine ⟨e, ?_, hwithin⟩
  have hthere : (untilEmpty step s).run (ofBytes (before ++ front))
      = (untilEmpty step s₁).run ⟨0, before.length, front⟩ :=
    run_untilEmpty_append h.consumes h.isLocal hbefore front
  have hstop : (untilEmpty step s₁).run ⟨0, before.length, front⟩ = .error e r := by
    rw [run_untilEmpty_cons h.consumes hfront]
    exact run_bind_of_error herror
  rw [runWindow, hthere, hstop]

end Reader

end Protowire
