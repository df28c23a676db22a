import Protowire.Proofs.Wire.Occurrence
import Protowire.Proofs.Wire.Varint

/-!
# Proofs/Wire/Locality — a read that succeeds depends on the bytes it takes and on no others

A computation is **local** (`Decode.Local`) when the bytes it takes decide its result: with other
bytes after them it takes the same bytes and returns the same value.  Every framing is local, and
so is what is composed of local reads (`Local.bind`).

`Reader.untilEmpty` is not local, since it goes on to the end.  Its runs are the chains
`Reader.Exhausts`, and a run over `a ++ b` is one over `a` and then one over `b`
(`Reader.run_untilEmpty_extend`).
-/

namespace Protowire

namespace Reader

/-- The reader with more bytes after those that are left. -/
def extend (r : Reader) (tail : Bytes) : Reader := { r with rest := r.rest ++ tail }

end Reader

namespace Decode

variable {α β : Type}

/-! ## Composite computations that succeed -/

/-- A sequence succeeds when its parts do, one after the other. -/
theorem run_bind_eq_ok {x : Decode α} {f : α → Decode β} {r r' : Reader} {b : β} :
    (x >>= f).run r = .ok b r' ↔ ∃ a s, x.run r = .ok a s ∧ (f a).run s = .ok b r' := by
  rw [EStateM.run_bind]
  constructor
  · intro h
    split at h
    · rename_i a s hx
      exact ⟨a, s, hx, h⟩
    · exact absurd h nofun
  · rintro ⟨a, s, hx, hf⟩
    rw [hx]
    exact hf

/-- A sequence whose first part succeeds goes on with the second. -/
theorem run_bind_of_ok {x : Decode α} {f : α → Decode β} {r s : Reader} {a : α}
    (h : x.run r = .ok a s) : (x >>= f).run r = (f a).run s := by
  rw [EStateM.run_bind, h]

/-- A sequence whose first part breaks off breaks off. -/
theorem run_bind_of_error {x : Decode α} {f : α → Decode β} {r s : Reader} {e : DecodeError}
    (h : x.run r = .error e s) : (x >>= f).run r = .error e s := by
  rw [EStateM.run_bind, h]

/-- A finished result reads nothing. -/
theorem run_ofExcept_eq_ok {x : Except DecodeError α} {r r' : Reader} {a : α} :
    (ofExcept x).run r = .ok a r' ↔ x = .ok a ∧ r' = r := by
  cases x with
  | error e => exact ⟨nofun, nofun⟩
  | ok b =>
    constructor
    · intro h
      obtain ⟨rfl, rfl⟩ := EStateM.Result.ok.inj h
      exact ⟨rfl, rfl⟩
    · rintro ⟨h, rfl⟩
      obtain rfl := Except.ok.inj h
      rfl

/-! ## Locality -/

/-- **The bytes a successful read takes decide its result.** -/
def Local (x : Decode α) : Prop :=
  ∀ ⦃r : Reader⦄ ⦃a : α⦄ ⦃r' : Reader⦄, x.run r = .ok a r' →
    ∃ used rest, r.rest = used ++ rest ∧ r' = ⟨r.start, r.pos + used.length, rest⟩ ∧
      ∀ tail, x.run ⟨r.start, r.pos, used ++ tail⟩ = .ok a ⟨r.start, r.pos + used.length, tail⟩

/-- A successful read takes at least one byte. -/
def Consumes (x : Decode α) : Prop :=
  ∀ ⦃r : Reader⦄ ⦃a : α⦄ ⦃r' : Reader⦄, x.run r = .ok a r' → r'.remaining < r.remaining

/-- A local read is the same with more bytes at the end. -/
theorem Local.run_extend {x : Decode α} (hx : Local x) {r r' : Reader} {a : α}
    (h : x.run r = .ok a r') (tail : Bytes) :
    x.run (r.extend tail) = .ok a (r'.extend tail) := by
  obtain ⟨used, rest, hrest, rfl, htail⟩ := hx h
  rw [Reader.extend, hrest, List.append_assoc]
  exact htail (rest ++ tail)

/-- A local read takes no byte back. -/
theorem Local.remaining_le {x : Decode α} (hx : Local x) {r r' : Reader} {a : α}
    (h : x.run r = .ok a r') : r'.remaining ≤ r.remaining := by
  obtain ⟨used, rest, hrest, rfl, -⟩ := hx h
  rw [Reader.remaining, Reader.remaining, hrest, List.length_append]
  exact Nat.le_add_left _ _

theorem Local.pure (a : α) : Local (Pure.pure a) := by
  intro r b r' h
  obtain ⟨rfl, rfl⟩ := EStateM.Result.ok.inj h
  exact ⟨[], r.rest, rfl, rfl, fun tail => rfl⟩

theorem Local.ofExcept (x : Except DecodeError α) : Local (ofExcept x) := by
  intro r a r' h
  obtain ⟨rfl, rfl⟩ := run_ofExcept_eq_ok.1 h
  exact ⟨[], r'.rest, rfl, rfl, fun tail => rfl⟩

/-- **A sequence of local reads is local**: it takes what the first one takes and then what the
second one takes. -/
theorem Local.bind {x : Decode α} {f : α → Decode β} (hx : Local x) (hf : ∀ a, Local (f a)) :
    Local (x >>= f) := by
  intro r b r' h
  obtain ⟨a, s, hxr, hfs⟩ := run_bind_eq_ok.1 h
  obtain ⟨used, rest, hrest, rfl, htail⟩ := hx hxr
  obtain ⟨used', rest', rfl, rfl, htail'⟩ := hf a hfs
  have hlen : r.pos + used.length + used'.length = r.pos + (used ++ used').length := by
    rw [List.length_append, Nat.add_assoc]
  refine ⟨used ++ used', rest', by rw [hrest, List.append_assoc], by rw [hlen], fun tail => ?_⟩
  rw [List.append_assoc, run_bind_of_ok (htail (used' ++ tail)), htail' tail, hlen]

/-- A read that only looks at the offset first is local. -/
theorem Local.offset {f : Nat → Decode α} (hf : ∀ n, Local (f n)) :
    Local (get >>= fun r : Reader => f r.offset) := by
  intro r a r' h
  obtain ⟨used, rest, hrest, hr', htail⟩ := hf r.offset h
  exact ⟨used, rest, hrest, hr', htail⟩

theorem Consumes.bind {x : Decode α} {f : α → Decode β} (hx : Consumes x) (hf : ∀ a, Local (f a)) :
    Consumes (x >>= f) := by
  intro r b r' h
  obtain ⟨a, s, hxr, hfs⟩ := run_bind_eq_ok.1 h
  exact Nat.lt_of_le_of_lt ((hf a).remaining_le hfs) (hx hxr)

theorem Consumes.offset {f : Nat → Decode α} (hf : ∀ n, Consumes (f n)) :
    Consumes (get >>= fun r : Reader => f r.offset) :=
  fun r _ _ h => hf r.offset h

/-- A check in front of a read takes nothing. -/
theorem Consumes.ofExcept_bind {x : Except DecodeError β} {f : β → Decode α}
    (hf : ∀ b, Consumes (f b)) : Consumes (Decode.ofExcept x >>= f) := by
  intro r a r' h
  obtain ⟨b, s, hxr, hfs⟩ := run_bind_eq_ok.1 h
  obtain ⟨-, rfl⟩ := run_ofExcept_eq_ok.1 hxr
  exact hf b hfs

end Decode

/-! ## The framings -/

namespace Reader

open Decode

theorem run_varint_eq_ok {r r' : Reader} {word : UInt64} :
    varint.run r = .ok word r' ↔
      ∃ length, Varint.decode r.rest = some (word, length) ∧ r' = r.advance length := by
  simp only [varint, EStateM.run]
  constructor
  · intro h
    split at h
    · rename_i word' length hdecode
      obtain ⟨rfl, rfl⟩ := EStateM.Result.ok.inj h
      exact ⟨length, hdecode, rfl⟩
    · exact absurd h nofun
  · rintro ⟨length, hdecode, rfl⟩
    rw [hdecode]

theorem run_varint_eq_error {r r' : Reader} {e : DecodeError} (h : varint.run r = .error e r') :
    e = .malformedVarint r.offset ∧ r' = r := by
  simp only [varint, EStateM.run] at h
  split at h
  · exact absurd h nofun
  · obtain ⟨rfl, rfl⟩ := EStateM.Result.error.inj h
    exact ⟨rfl, rfl⟩

/-- **A varint that is read is at least one byte long**, and its bytes are read alike whatever
follows. -/
theorem exists_of_run_varint {r r' : Reader} {word : UInt64} (h : varint.run r = .ok word r') :
    ∃ used rest, 0 < used.length ∧ r.rest = used ++ rest ∧
      r' = ⟨r.start, r.pos + used.length, rest⟩ ∧
      ∀ tail, varint.run ⟨r.start, r.pos, used ++ tail⟩
        = .ok word ⟨r.start, r.pos + used.length, tail⟩ := by
  obtain ⟨length, hdecode, rfl⟩ := run_varint_eq_ok.1 h
  obtain ⟨used, rest, hbytes, rfl, hpos, htail⟩ := Varint.exists_used_of_decode hdecode
  refine ⟨used, rest, hpos, hbytes, by rw [advance, hbytes, List.drop_left], fun tail => ?_⟩
  exact run_varint_eq_ok.2 ⟨used.length, htail tail, by rw [advance, List.drop_left]⟩

theorem varint_local : Local varint := by
  intro r word r' h
  obtain ⟨used, rest, -, hrest, hr', htail⟩ := exists_of_run_varint h
  exact ⟨used, rest, hrest, hr', htail⟩

theorem varint_consumes : Consumes varint := by
  intro r word r' h
  obtain ⟨used, rest, hpos, hrest, rfl, -⟩ := exists_of_run_varint h
  rw [remaining, remaining, hrest, List.length_append]
  exact Nat.lt_add_of_pos_left hpos

/-- What taking `n` bytes does when they are there. -/
theorem run_take {used tail : Bytes} {start pos : Nat} :
    (take used.length).run ⟨start, pos, used ++ tail⟩
      = .ok used ⟨start, pos + used.length, tail⟩ := by
  simp only [take, EStateM.run, remaining, List.length_append, Nat.le_add_right, if_true, advance,
    List.take_left, List.drop_left]

/-- Taking `n` bytes gives the first `n` of them. -/
theorem exists_of_run_take {n : Nat} {r r' : Reader} {bytes : Bytes}
    (h : (take n).run r = .ok bytes r') :
    ∃ rest, bytes.length = n ∧ r.rest = bytes ++ rest ∧
      r' = ⟨r.start, r.pos + bytes.length, rest⟩ := by
  simp only [take, EStateM.run] at h
  split at h
  · rename_i hle
    obtain ⟨rfl, rfl⟩ := EStateM.Result.ok.inj h
    have hlen : (r.rest.take n).length = n := List.length_take_of_le hle
    exact ⟨r.rest.drop n, hlen, (List.take_append_drop n r.rest).symm, by rw [hlen, advance]⟩
  · exact absurd h nofun

theorem run_take_eq_error {n : Nat} {r r' : Reader} {e : DecodeError}
    (h : (take n).run r = .error e r') :
    r.remaining < n ∧ e = .truncated r.offset n r.remaining ∧ r' = r := by
  simp only [take, EStateM.run] at h
  split at h
  · exact absurd h nofun
  · rename_i hlt
    obtain ⟨rfl, rfl⟩ := EStateM.Result.error.inj h
    exact ⟨Nat.lt_of_not_le hlt, rfl, rfl⟩

theorem take_local (n : Nat) : Local (take n) := by
  intro r bytes r' h
  obtain ⟨rest, rfl, hrest, hr'⟩ := exists_of_run_take h
  exact ⟨bytes, rest, hrest, hr', fun tail => run_take⟩

theorem take_consumes {n : Nat} (hn : 0 < n) : Consumes (take n) := by
  intro r bytes r' h
  obtain ⟨rest, rfl, hrest, rfl⟩ := exists_of_run_take h
  rw [remaining, remaining, hrest, List.length_append]
  exact Nat.lt_add_of_pos_left hn

theorem fixed32_local : Local fixed32 := (take_local 4).bind fun _ => .pure _

theorem fixed32_consumes : Consumes fixed32 :=
  (take_consumes (by decide)).bind fun _ => .pure _

theorem fixed64_local : Local fixed64 := (take_local 8).bind fun _ => .pure _

theorem fixed64_consumes : Consumes fixed64 :=
  (take_consumes (by decide)).bind fun _ => .pure _

/-- The window over a payload, read behind its length. -/
theorem window_local (length : UInt64) :
    Local (do let start := (← get).offset; return window start (← take length.toNat)) :=
  .offset fun start => (take_local length.toNat).bind fun bytes => .pure (window start bytes)

theorem enter_local : Local enter := varint_local.bind window_local

theorem delimited_local : Local delimited :=
  varint_local.bind fun length => take_local length.toNat

theorem enter_consumes : Consumes enter := varint_consumes.bind window_local

/-- **Entering a payload** takes a length and the payload, and leaves the rest; the reader that is
entered covers the payload. -/
theorem exists_of_run_enter {r r' inner : Reader} (h : enter.run r = .ok inner r') :
    ∃ header bytes rest, r.rest = header ++ (bytes ++ rest) ∧
      inner = window (r.offset + header.length) bytes ∧
      r' = ⟨r.start, r.pos + header.length + bytes.length, rest⟩ := by
  obtain ⟨length, s, hlength, hwindow⟩ := run_bind_eq_ok.1 h
  obtain ⟨header, rest, -, hheader, rfl, -⟩ := exists_of_run_varint hlength
  obtain ⟨bytes, s, htake, hpure⟩ := (run_bind_eq_ok (x := take length.toNat)
      (f := fun bytes => pure (window (r.start + (r.pos + header.length)) bytes))).1 hwindow
  obtain ⟨rest', -, hbytes, rfl⟩ := exists_of_run_take htake
  obtain ⟨rfl, rfl⟩ := EStateM.Result.ok.inj hpure
  obtain rfl : rest = bytes ++ rest' := hbytes
  exact ⟨header, bytes, rest', hheader, by rw [offset, Nat.add_assoc], rfl⟩

/-- A tag is a varint and what it stands for. -/
theorem tag_eq : tag = get >>= fun r : Reader => varint >>= fun key =>
    Decode.ofExcept (Tag.decode key r.offset) := by
  refine bind_congr fun r => bind_congr fun key => ?_
  cases Tag.decode key r.offset <;> rfl

theorem tag_local : Local tag := by
  rw [tag_eq]
  exact .offset fun offset => varint_local.bind fun key => .ofExcept (Tag.decode key offset)

theorem tag_consumes : Consumes tag := by
  rw [tag_eq]
  exact .offset fun offset => varint_consumes.bind fun key => .ofExcept (Tag.decode key offset)

/-- **What the four framings have, a payload has**, if it is kept by what is made of a value and by
a look at the offset. -/
theorem occurrence_of_framings {P : ∀ {α : Type}, Decode α → Prop}
    (hmap : ∀ {α β : Type} {x : Decode α} (f : α → β), P x → Local x →
      P (x >>= fun a => pure (f a)))
    (hoffset : ∀ {α : Type} {g : Nat → Decode α}, (∀ n, P (g n)) →
      P (get >>= fun r : Reader => g r.offset))
    (hvarint : P varint) (hfixed64 : P fixed64) (hfixed32 : P fixed32) (henter : P enter)
    (wireType : WireType) : P (occurrence wireType) := by
  cases wireType with
  | varint =>
    exact hoffset (g := fun offset => do return Occurrence.mk offset offset (.varint (← varint)))
      fun offset => hmap _ hvarint varint_local
  | fixed64 =>
    exact hoffset (g := fun offset => do return Occurrence.mk offset offset (.fixed64 (← fixed64)))
      fun offset => hmap _ hfixed64 fixed64_local
  | fixed32 =>
    exact hoffset (g := fun offset => do return Occurrence.mk offset offset (.fixed32 (← fixed32)))
      fun offset => hmap _ hfixed32 fixed32_local
  | lengthDelimited =>
    exact hoffset (g := fun offset => do
        let inner ← enter
        return Occurrence.mk offset inner.start (.delimited inner.rest)) fun offset =>
      hmap _ henter enter_local

/-- **What sequences have when their parts do, every framing has** when varints and plain bytes have
it. -/
theorem occurrence_of_parts {P : ∀ {α : Type}, Decode α → Prop}
    (hpure : ∀ {α : Type} (a : α), P (pure a : Decode α))
    (hbind : ∀ {α β : Type} {x : Decode α} {f : α → Decode β}, P x → Local x → (∀ a, P (f a)) →
      P (x >>= f))
    (hoffset : ∀ {α : Type} {g : Nat → Decode α}, (∀ n, P (g n)) →
      P (get >>= fun r : Reader => g r.offset))
    (hvarint : P varint) (htake : ∀ n, P (take n)) (wireType : WireType) :
    P (occurrence wireType) := by
  have henter : P enter := hbind hvarint varint_local fun length =>
    hoffset (g := fun start => do return window start (← take length.toNat)) fun start =>
      hbind (htake length.toNat) (take_local length.toNat) fun bytes => hpure _
  exact occurrence_of_framings (fun f hx hlocal => hbind hx hlocal fun a => hpure (f a)) hoffset
    hvarint (hbind (htake 8) (take_local 8) fun bytes => hpure _)
    (hbind (htake 4) (take_local 4) fun bytes => hpure _) henter wireType

/-- **Every framing is local.** -/
theorem occurrence_local (wireType : WireType) : Local (occurrence wireType) :=
  occurrence_of_parts .pure (fun hx _ hf => hx.bind hf) .offset varint_local take_local wireType

/-- **Every payload takes at least one byte.** -/
theorem occurrence_consumes (wireType : WireType) : Consumes (occurrence wireType) :=
  occurrence_of_framings (fun f hx _ => hx.bind fun a => .pure (f a)) .offset varint_consumes
    fixed64_consumes fixed32_consumes enter_consumes wireType

theorem skip_local (wireType : WireType) : Local (skip wireType) := by
  rw [skip_eq]
  exact (occurrence_local wireType).bind fun _ => .pure ()

/-- A payload that is read is skipped to the same place. -/
theorem run_skip_of_occurrence {wireType : WireType} {r r' : Reader} {o : Occurrence}
    (h : (occurrence wireType).run r = .ok o r') : (skip wireType).run r = .ok () r' := by
  rw [skip_eq]
  exact run_bind_of_ok h

/-! ## Reading on to the end of the window -/

variable {σ : Type} {step : σ → Decode σ}

/-- Steps that lead from a state and a cursor to a state and a cursor with nothing left. -/
inductive Exhausts (step : σ → Decode σ) : σ → Reader → σ → Reader → Prop where
  | done {s : σ} {r : Reader} (h : r.rest = []) : Exhausts step s r s r
  | next {s s₁ s' : σ} {r r₁ r' : Reader} (h : r.rest ≠ []) (head : (step s).run r = .ok s₁ r₁)
      (tail : Exhausts step s₁ r₁ s' r') : Exhausts step s r s' r'

/-- With nothing left no step is taken. -/
theorem run_untilEmpty_nil {s : σ} {r : Reader} (h : r.rest = []) :
    (untilEmpty step s).run r = .ok s r := by
  change (repeatUpTo step r.remaining s).run r = _
  rw [remaining, h]
  rfl

/-- A round of the loop ends it where nothing is left, and is a step elsewhere. -/
theorem run_repeatUpTo_succ (fuel : Nat) (s : σ) (r : Reader) :
    (repeatUpTo step (fuel + 1) s).run r
      = if r.isEmpty then .ok s r else (step s >>= repeatUpTo step fuel).run r := by
  change (if r.isEmpty then pure s else step s >>= repeatUpTo step fuel : Decode σ).run r = _
  split <;> rfl

/-- With nothing left the loop ends, whatever number of rounds it has. -/
theorem run_repeatUpTo_of_isEmpty {r : Reader} (h : r.isEmpty = true) (fuel : Nat) (s : σ) :
    (repeatUpTo step fuel s).run r = .ok s r := by
  cases fuel with
  | zero => rfl
  | succ fuel => rw [run_repeatUpTo_succ, if_pos h]

/-- One more step than are needed changes nothing, nor does any number of them. -/
theorem run_repeatUpTo_eq (hstep : ∀ s, Consumes (step s)) :
    ∀ {m n : Nat} (s : σ) (r : Reader), r.remaining ≤ m → r.remaining ≤ n →
      (repeatUpTo step m s).run r = (repeatUpTo step n s).run r := by
  intro m
  induction m with
  | zero =>
    intro n s r hm _
    have hnil : r.isEmpty = true :=
      List.isEmpty_iff.2 (List.length_eq_zero_iff.1 (Nat.le_zero.1 hm))
    rw [run_repeatUpTo_of_isEmpty hnil, run_repeatUpTo_of_isEmpty hnil]
  | succ m ih =>
    intro n s r hm hn
    by_cases hnil : r.isEmpty = true
    · rw [run_repeatUpTo_of_isEmpty hnil, run_repeatUpTo_of_isEmpty hnil]
    · obtain ⟨n, rfl⟩ : ∃ k, n = k + 1 := Nat.exists_eq_succ_of_ne_zero fun h0 =>
        hnil (List.isEmpty_iff.2 (List.length_eq_zero_iff.1 (Nat.le_zero.1 (h0 ▸ hn))))
      rw [run_repeatUpTo_succ, run_repeatUpTo_succ, if_neg hnil, if_neg hnil, EStateM.run_bind,
        EStateM.run_bind]
      cases hs : (step s).run r with
      | error e r₁ => rfl
      | ok s₁ r₁ =>
        have hlt := hstep s hs
        exact ih s₁ r₁ (by omega) (by omega)

/-- **With something left, a step is taken and reading goes on.** -/
theorem run_untilEmpty_cons (hstep : ∀ s, Consumes (step s)) {s : σ} {r : Reader}
    (h : r.rest ≠ []) : (untilEmpty step s).run r = (step s >>= untilEmpty step).run r := by
  obtain ⟨n, hn⟩ : ∃ n, r.remaining = n + 1 :=
    Nat.exists_eq_succ_of_ne_zero fun h0 => h (List.length_eq_zero_iff.1 h0)
  have hne : ¬ r.isEmpty = true := fun hnil => h (List.isEmpty_iff.1 hnil)
  change (repeatUpTo step r.remaining s).run r = _
  rw [hn, run_repeatUpTo_succ, if_neg hne, EStateM.run_bind, EStateM.run_bind]
  cases hs : (step s).run r with
  | error e r₁ => rfl
  | ok s₁ r₁ =>
    have hlt := hstep s hs
    exact run_repeatUpTo_eq hstep s₁ r₁ (by omega) (Nat.le_refl _)

/-- A run to the end is a chain of steps. -/
theorem run_untilEmpty_eq_ok (hstep : ∀ s, Consumes (step s)) {s s' : σ} {r r' : Reader} :
    (untilEmpty step s).run r = .ok s' r' ↔ Exhausts step s r s' r' := by
  constructor
  · intro h
    induction hlen : r.remaining using Nat.strongRecOn generalizing s r with
    | ind n ih =>
      by_cases hnil : r.rest = []
      · rw [run_untilEmpty_nil hnil] at h
        obtain ⟨rfl, rfl⟩ := EStateM.Result.ok.inj h
        exact .done hnil
      · rw [run_untilEmpty_cons hstep hnil] at h
        obtain ⟨s₁, r₁, hs, htail⟩ := run_bind_eq_ok.1 h
        exact .next hnil hs (ih r₁.remaining (hlen ▸ hstep s hs) htail rfl)
  · intro h
    induction h with
    | done h => exact run_untilEmpty_nil h
    | next h hs _ ih => rw [run_untilEmpty_cons hstep h, run_bind_of_ok hs, ih]

/-- A run ends behind all bytes that were left. -/
theorem Exhausts.eq_end (hlocal : ∀ s, Local (step s)) {s s' : σ} {r r' : Reader}
    (h : Exhausts step s r s' r') : r' = ⟨r.start, r.pos + r.rest.length, []⟩ := by
  induction h with
  | @done s r h => rw [h, List.length_nil, Nat.add_zero, ← h]
  | @next s _ _ r _ _ _ hs _ ih =>
    obtain ⟨used, rest, hrest, rfl, -⟩ := hlocal s hs
    rw [ih, hrest, List.length_append, Nat.add_assoc]

/-- **A run with more bytes at the end goes on with those bytes where it would have stopped.** -/
theorem Exhausts.run_untilEmpty_extend (hstep : ∀ s, Consumes (step s))
    (hlocal : ∀ s, Local (step s)) {s s' : σ} {r r' : Reader} (h : Exhausts step s r s' r')
    (tail : Bytes) :
    (untilEmpty step s).run (r.extend tail) = (untilEmpty step s').run (r'.extend tail) := by
  induction h with
  | done _ => rfl
  | @next s _ _ r _ _ hne hs _ ih =>
    have hne' : (r.extend tail).rest ≠ [] := List.append_ne_nil_of_left_ne_nil hne tail
    rw [run_untilEmpty_cons hstep hne', run_bind_of_ok ((hlocal s).run_extend hs tail), ih]

/-- **A run that fails has read some of the bytes to their end**, and its next step fails there. -/
theorem exists_front_of_run_untilEmpty_eq_error (hstep : ∀ s, Consumes (step s))
    (hlocal : ∀ s, Local (step s)) {s : σ} {r r' : Reader} {e : DecodeError}
    (h : (untilEmpty step s).run r = .error e r') :
    ∃ front back s₁, r.rest = front ++ back ∧ back ≠ [] ∧
      Exhausts step s ⟨r.start, r.pos, front⟩ s₁ ⟨r.start, r.pos + front.length, []⟩ ∧
      (step s₁).run ⟨r.start, r.pos + front.length, back⟩ = .error e r' := by
  induction hlen : r.remaining using Nat.strongRecOn generalizing s r with
  | ind n ih =>
    have hne : r.rest ≠ [] := fun hnil => by
      rw [run_untilEmpty_nil hnil] at h
      exact absurd h nofun
    rw [run_untilEmpty_cons hstep hne, EStateM.run_bind] at h
    cases hs : (step s).run r with
    | error e' r₁ =>
      rw [hs] at h
      refine ⟨[], r.rest, s, rfl, hne, .done rfl, ?_⟩
      exact hs.trans h
    | ok s₂ r₂ =>
      rw [hs] at h
      have hlt : r₂.remaining < n := hlen ▸ hstep s hs
      obtain ⟨used, rest, hrest, rfl, htail⟩ := hlocal s hs
      obtain ⟨front, back, s₁, hsplit, hback, hex, herror⟩ := ih _ hlt h rfl
      obtain rfl : rest = front ++ back := hsplit
      have hpos : r.pos + (used ++ front).length = r.pos + used.length + front.length := by
        rw [List.length_append, Nat.add_assoc]
      have hused : used ≠ [] := by
        rintro rfl
        have hless := hstep s hs
        rw [remaining, remaining, hrest] at hless
        exact Nat.lt_irrefl _ hless
      refine ⟨used ++ front, back, s₁, ?_, hback, ?_, ?_⟩
      · rw [hrest, List.append_assoc]
      · rw [hpos]
        exact .next (List.append_ne_nil_of_left_ne_nil hused front) (htail front) hex
      · rw [hpos]
        exact herror

end Reader

end Protowire
