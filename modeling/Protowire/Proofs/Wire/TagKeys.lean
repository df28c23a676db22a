import Protowire.Proofs.Wire.Reads

/-!
# Proofs/Wire/TagKeys — what the word of a tag stands for

The word of a tag is eight times a field number plus the code of a framing.  **It stands for that
number and that framing and for nothing else** (`Tag.decode_eq_ok_iff`); a word that stands for
nothing is refused for its code, whatever its number, and for its number when its code is a good one
(`Tag.decode_eq_error_iff`).
-/

namespace Protowire

/-- The three bits that name no framing: those of groups and the ones that have no meaning. -/
def WireType.IsUnused (code : Nat) : Prop := code = 3 ∨ code = 4 ∨ code = 6 ∨ code = 7

instance (code : Nat) : Decidable (WireType.IsUnused code) :=
  inferInstanceAs (Decidable (code = 3 ∨ code = 4 ∨ code = 6 ∨ code = 7))

theorem WireType.ofCode?_eq_none_iff : ∀ code < 8, ofCode? code = none ↔ IsUnused code := by
  decide

namespace Tag

variable {key : UInt64} {offset : Nat}

/-- A word without a framing is refused for that. -/
theorem decode_of_isUnused (h : WireType.IsUnused (key.toNat % 8)) :
    decode key offset = .error (.unsupportedWireType (key.toNat % 8) offset) := by
  have hnone := (WireType.ofCode?_eq_none_iff _ (Nat.mod_lt _ (by decide))).2 h
  simp only [decode, hnone]

/-- A word with a framing is read as that and its number, if that is one. -/
theorem decode_of_code {w : WireType} (h : key.toNat % 8 = w.code) :
    decode key offset =
      if 1 ≤ key.toNat / 8 ∧ key.toNat / 8 ≤ FieldNumber.max then .ok (key.toNat / 8, w)
      else .error (.invalidFieldNumber (key.toNat / 8) offset) := by
  simp only [decode, WireType.ofCode?_eq_some_iff.2 h]

/-- A word has a framing, or three bits that name none. -/
theorem exists_code_or_isUnused (key : UInt64) :
    (∃ w : WireType, key.toNat % 8 = w.code) ∨ WireType.IsUnused (key.toNat % 8) := by
  cases hfound : WireType.ofCode? (key.toNat % 8) with
  | none => exact .inr ((WireType.ofCode?_eq_none_iff _ (Nat.mod_lt _ (by decide))).1 hfound)
  | some w => exact .inl ⟨w, WireType.ofCode?_eq_some_iff.1 hfound⟩

theorem not_isUnused_code (w : WireType) : ¬ WireType.IsUnused w.code := by
  cases w <;> decide

/-- **A word stands for a number and a framing** when it is eight times the number plus the code of
the framing, and the number is one that a field may have. -/
theorem decode_eq_ok_iff {number : Nat} {w : WireType} :
    decode key offset = .ok (number, w) ↔
      1 ≤ number ∧ number ≤ FieldNumber.max ∧ key.toNat = 8 * number + w.code := by
  constructor
  · intro h
    rcases exists_code_or_isUnused key with ⟨w', hcode⟩ | hunused
    · rw [decode_of_code hcode] at h
      split at h
      · rename_i hnumber
        obtain ⟨rfl, rfl⟩ := Prod.mk.inj (Except.ok.inj h)
        refine ⟨hnumber.1, hnumber.2, ?_⟩
        rw [← hcode, Nat.div_add_mod]
      · exact absurd h nofun
    · rw [decode_of_isUnused hunused] at h
      exact absurd h nofun
  · rintro ⟨hpos, hmax, hkey⟩
    obtain rfl : key = Tag.key number w := UInt64.toNat_inj.1 (hkey.trans (toNat_key hmax w).symm)
    exact decode_key hpos hmax w offset

/-- **Why a word stands for nothing**: first its code, then its number. -/
theorem decode_eq_error_iff {e : DecodeError} : decode key offset = .error e ↔
    if WireType.IsUnused (key.toNat % 8) then e = .unsupportedWireType (key.toNat % 8) offset
    else ¬ (1 ≤ key.toNat / 8 ∧ key.toNat / 8 ≤ FieldNumber.max) ∧
      e = .invalidFieldNumber (key.toNat / 8) offset := by
  rcases exists_code_or_isUnused key with ⟨w, hcode⟩ | hunused
  · rw [if_neg (hcode ▸ not_isUnused_code w), decode_of_code hcode]
    split
    · rename_i hnumber
      exact iff_of_false nofun fun h => h.1 hnumber
    · rename_i hnumber
      rw [Except.error.injEq]
      exact ⟨fun h => ⟨hnumber, h.symm⟩, fun h => h.2.symm⟩
  · rw [if_pos hunused, decode_of_isUnused hunused, Except.error.injEq]
    exact eq_comm

/-- **Tags are put together and taken apart inversely.**  A word is taken apart into a number and a
framing exactly when it is eight times the one, from 1 to 2²⁹ − 1, plus the code of the other.
Otherwise it is refused: for its three low bits when these name no framing, and for its number when
they do.  A tag that was written is read back whatever follows, and the cursor is then as much
further on as `Tag.size` says, which does not ask for the framing. -/
theorem apart_and_together :
    (∀ (key : UInt64) (offset number : Nat) (w : WireType),
      decode key offset = .ok (number, w) ↔
        1 ≤ number ∧ number ≤ FieldNumber.max ∧ key.toNat = 8 * number + w.code) ∧
    (∀ (key : UInt64) (offset : Nat) (e : DecodeError), decode key offset = .error e ↔
      if WireType.IsUnused (key.toNat % 8) then e = .unsupportedWireType (key.toNat % 8) offset
      else ¬ (1 ≤ key.toNat / 8 ∧ key.toNat / 8 ≤ FieldNumber.max) ∧
        e = .invalidFieldNumber (key.toNat / 8) offset) ∧
    ∀ (number : Nat) (w : WireType) (start pos : Nat) (tail : Bytes), 1 ≤ number →
      number ≤ FieldNumber.max →
      (encode number w).length = size number ∧
        Reader.tag.run ⟨start, pos, encode number w ++ tail⟩ =
          .ok (number, w) ⟨start, pos + size number, tail⟩ := by
  refine ⟨fun _ _ _ _ => decode_eq_ok_iff, fun _ _ _ => decode_eq_error_iff, ?_⟩
  intro number w start pos tail hpos hmax
  have hread := Reader.tag_readsAt (n := start + pos) hpos hmax w start pos tail rfl
  rw [length_encode] at hread
  exact ⟨length_encode number w, hread⟩

/-- The largest number with the framing of text, in the middle of a window, with bytes behind it. -/
theorem apart_and_together_largest :
    (encode 536870911 .lengthDelimited).length = size 536870911 ∧ size 536870911 = 5 ∧
      Reader.tag.run ⟨7, 2, encode 536870911 .lengthDelimited ++ [0x00, 0xff]⟩ =
        .ok (536870911, .lengthDelimited) ⟨7, 2 + size 536870911, [0x00, 0xff]⟩ := by
  obtain ⟨hlength, hread⟩ := apart_and_together.2.2 536870911 .lengthDelimited 7 2 [0x00, 0xff]
    (by decide) (by decide)
  exact ⟨hlength, by decide, hread⟩

end Tag

end Protowire
