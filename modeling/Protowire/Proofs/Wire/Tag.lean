import Protowire.Proofs.Wire.Varint
import Protowire.Wire.Tag

/-!
# Proofs/Wire/Tag — a tag is read back, and its framing does not change its length

* `Tag.decode_key` — the word of a valid number and a framing stands for them.
* `Tag.length_encode` — `Tag.size` is the length of a tag, for every number and every framing.
-/

namespace Protowire

/-- A code has three bits. -/
theorem WireType.code_lt (w : WireType) : w.code < 8 := by
  cases w <;> decide

namespace Varint

/-- **Three low bits next to a multiple of eight do not change a size.** -/
theorem size_ofNat_add {n code : Nat} (hcode : code < 8) :
    size (UInt64.ofNat (8 * n + code)) = size (UInt64.ofNat (8 * n)) := by
  have hlow : (8 * n + code) % 2 ^ 64 = 8 * n % 2 ^ 64 + code := by omega
  have hq : 8 * n % 2 ^ 64 / 2 ^ 3 = (8 * n % 2 ^ 64 + code) / 2 ^ 3 := by omega
  rw [size, size, UInt64.toNat_ofNat', UInt64.toNat_ofNat', hlow]
  rcases Nat.lt_or_ge (8 * n % 2 ^ 64) 8 with hlt | hge
  · rw [log2_div_seven_of_lt (by omega), log2_div_seven_of_lt (by omega)]
  · rw [log2_eq_log2_div_add (k := 3) (n := 8 * n % 2 ^ 64) (by omega), hq,
      ← log2_eq_log2_div_add (k := 3) (by omega)]

end Varint

namespace Tag

/-- **The size of a tag is its length**, whatever its framing. -/
@[simp] theorem length_encode (number : Nat) (w : WireType) :
    (encode number w).length = size number := by
  rw [encode, Varint.length_encode, key, size]
  exact Varint.size_ofNat_add w.code_lt

/-- The word of a valid tag does not wrap around. -/
theorem toNat_key {number : Nat} (h : number ≤ FieldNumber.max) (w : WireType) :
    (key number w).toNat = 8 * number + w.code := by
  have hmax : number ≤ 536870911 := h
  have hcode := w.code_lt
  rw [key, UInt64.toNat_ofNat']
  exact Nat.mod_eq_of_lt (by omega)

/-- **A valid number and a framing are read back from their word.** -/
theorem decode_key {number : Nat} (hpos : 1 ≤ number) (hmax : number ≤ FieldNumber.max)
    (w : WireType) (offset : Nat) : decode (key number w) offset = .ok (number, w) := by
  have hcode := w.code_lt
  have hmod : (key number w).toNat % 8 = w.code := by
    rw [toNat_key hmax, Nat.mul_add_mod, Nat.mod_eq_of_lt hcode]
  have hdiv : (key number w).toNat / 8 = number := by
    rw [toNat_key hmax]
    omega
  simp only [decode, hmod, hdiv, WireType.ofCode?_eq_some_iff.2 rfl]
  exact if_pos ⟨hpos, hmax⟩

end Tag

end Protowire
