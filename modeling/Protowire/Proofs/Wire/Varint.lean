import Mathlib.Algebra.GroupWithZero.Nat
import Protowire.Wire.Varint

/-!
# Proofs/Wire/Varint — a varint is read back as it was written, whatever follows it

* `decode_encode` — the shortest form of a word reads back as that word.
* `length_encode` — `size` is the length of the shortest form.
* `exists_used_of_decode` — reading a varint looks at the bytes it takes and at no others.
* `decode_eq_none_of_cut` — a varint that is cut short is not read.
-/

namespace Protowire.Varint

/-- Dividing by a power of two takes that power off the logarithm. -/
theorem log2_eq_log2_div_add {n k : Nat} (h : 2 ^ k ≤ n) : n.log2 = (n / 2 ^ k).log2 + k := by
  have hpos : 0 < 2 ^ k := Nat.two_pow_pos k
  have hq : n / 2 ^ k ≠ 0 := by
    have := (Nat.le_div_iff_mul_le hpos).2 (by rwa [Nat.one_mul] : 1 * 2 ^ k ≤ n)
    omega
  have hn : n ≠ 0 := by omega
  refine (Nat.log2_eq_iff hn).2 ⟨?_, ?_⟩
  · rw [Nat.pow_add]
    exact (Nat.le_div_iff_mul_le hpos).1 (Nat.log2_self_le hq)
  · rw [show (n / 2 ^ k).log2 + k + 1 = (n / 2 ^ k).log2 + 1 + k by omega, Nat.pow_add]
    exact (Nat.div_lt_iff_lt_mul hpos).1 Nat.lt_log2_self

/-- A number below 128 has at most seven bits. -/
theorem log2_div_seven_of_lt {n : Nat} (h : n < 128) : n.log2 / 7 = 0 := by
  rcases Nat.eq_zero_or_pos n with rfl | hpos
  · rfl
  · have := (Nat.log2_lt (Nat.pos_iff_ne_zero.1 hpos)).2 (show n < 2 ^ 7 from h)
    omega

/-- One byte for every seven bits. -/
theorem length_encodeNat {groups n : Nat} (h : n < 2 ^ (7 * (groups + 1))) :
    (encodeNat groups n).length = n.log2 / 7 + 1 := by
  induction groups generalizing n with
  | zero => rw [encodeNat, log2_div_seven_of_lt (by omega)]; rfl
  | succ groups ih =>
    rw [encodeNat]
    split
    · rename_i hlt
      rw [log2_div_seven_of_lt hlt]; rfl
    · rename_i hge
      have hdiv : n / 128 < 2 ^ (7 * (groups + 1)) := by
        rw [show 7 * (groups + 1 + 1) = 7 * (groups + 1) + 7 by omega, Nat.pow_add] at h
        exact (Nat.div_lt_iff_lt_mul (by omega)).2 h
      have hlog := log2_eq_log2_div_add (k := 7) (show 2 ^ 7 ≤ n by omega)
      rw [List.length_cons, ih hdiv, hlog, show (2 : Nat) ^ 7 = 128 from rfl]
      omega

/-- **The size of a varint is the length of its shortest form.** -/
@[simp] theorem length_encode (word : UInt64) : (encode word).length = size word :=
  length_encodeNat (Nat.lt_trans word.toNat_lt (by decide))

/-! ## Reading what was written -/

/-- A byte with its high bit clear ends the number, unless it is one too large for the last
group. -/
theorem decodeNat_cons_last {groups : Nat} {b : UInt8} {rest : Bytes} (hb : b < 128)
    (hlast : groups = 0 → b ≤ 1) : decodeNat (groups + 1) (b :: rest) = some (b.toNat, 1) := by
  rw [decodeNat, if_neg (fun h => UInt8.not_lt.2 (hlast h.1) h.2), if_pos hb]

/-- A byte with its high bit set carries seven bits of a number that goes on. -/
theorem decodeNat_cons_more {groups : Nat} {b : UInt8} {rest : Bytes} (hb : ¬ b < 128) :
    decodeNat (groups + 2) (b :: rest)
      = (decodeNat (groups + 1) rest).map fun (n, length) =>
          (b.toNat - 128 + 128 * n, length + 1) := by
  rw [decodeNat, if_neg (fun h => Nat.succ_ne_zero _ h.1), if_neg hb]

/-- A number that leaves one bit for the last group is read back. -/
theorem decodeNat_encodeNat {groups n : Nat} (h : n < 2 ^ (7 * groups + 1)) (tail : Bytes) :
    decodeNat (groups + 1) (encodeNat groups n ++ tail)
      = some (n, (encodeNat groups n).length) := by
  induction groups generalizing n with
  | zero =>
    have hn : n.toUInt8.toNat = n := by
      rw [UInt8.toNat_ofNat']; omega
    rw [encodeNat, List.singleton_append, decodeNat_cons_last, hn]
    · rfl
    · rw [UInt8.lt_iff_toNat_lt, hn]; exact Nat.lt_trans h (by decide)
    · intro _
      rw [UInt8.le_iff_toNat_le, hn]; exact Nat.le_of_lt_succ h
  | succ groups ih =>
    rw [encodeNat]
    split
    · rename_i hlt
      have hn : n.toUInt8.toNat = n := by
        rw [UInt8.toNat_ofNat']; omega
      rw [List.singleton_append, decodeNat_cons_last, hn]
      · rfl
      · rw [UInt8.lt_iff_toNat_lt, hn]; exact hlt
      · exact fun h0 => absurd h0 (Nat.succ_ne_zero groups)
    · have hb : (n % 128 + 128).toUInt8.toNat = n % 128 + 128 := by
        rw [UInt8.toNat_ofNat']; omega
      have hdiv : n / 128 < 2 ^ (7 * groups + 1) := by
        rw [show 7 * (groups + 1) + 1 = 7 * groups + 1 + 7 by omega, Nat.pow_add] at h
        exact (Nat.div_lt_iff_lt_mul (by omega)).2 h
      rw [List.cons_append, decodeNat_cons_more, ih hdiv]
      · simp only [Option.map_some, hb, List.length_cons, Option.some.injEq, Prod.mk.injEq,
          and_true]
        omega
      · rw [UInt8.lt_iff_toNat_lt, hb]; exact Nat.not_lt.2 (Nat.le_add_left _ _)

/-- **A word is read back from its shortest form**, whatever follows it. -/
theorem decode_encode (word : UInt64) (tail : Bytes) :
    decode (encode word ++ tail) = some (word, size word) := by
  have h : decodeNat maxSize (encode word ++ tail) = some (word.toNat, (encode word).length) :=
    decodeNat_encodeNat word.toNat_lt tail
  rw [decode, h, length_encode]
  exact congrArg (fun w => some (w, size word)) UInt64.ofNat_toNat

/-! ## Reading looks at no byte too many -/

/-- The bytes a number takes determine it. -/
theorem exists_used_of_decodeNat {groups : Nat} {bytes : Bytes} {n length : Nat}
    (h : decodeNat groups bytes = some (n, length)) :
    ∃ used rest, bytes = used ++ rest ∧ used.length = length ∧ 0 < length ∧
      ∀ tail, decodeNat groups (used ++ tail) = some (n, length) := by
  induction groups generalizing bytes n length with
  | zero => simp [decodeNat] at h
  | succ groups ih =>
    cases bytes with
    | nil => simp [decodeNat] at h
    | cons b rest =>
      by_cases hlast : groups = 0 ∧ 1 < b
      · rw [decodeNat, if_pos hlast] at h
        exact absurd h nofun
      · by_cases hb : b < 128
        · rw [decodeNat, if_neg hlast, if_pos hb] at h
          obtain ⟨rfl, rfl⟩ := Prod.mk.inj (Option.some.inj h)
          exact ⟨[b], rest, rfl, rfl, Nat.one_pos, fun tail => by
            rw [List.singleton_append, decodeNat, if_neg hlast, if_pos hb]⟩
        · rw [decodeNat, if_neg hlast, if_neg hb] at h
          obtain ⟨⟨m, len⟩, hm, heq⟩ := Option.map_eq_some_iff.1 h
          obtain ⟨rfl, rfl⟩ := Prod.mk.inj heq
          obtain ⟨used, rest', rfl, rfl, -, htail⟩ := ih hm
          exact ⟨b :: used, rest', rfl, rfl, Nat.succ_pos _, fun tail => by
            rw [List.cons_append, decodeNat, if_neg hlast, if_neg hb, htail tail]
            rfl⟩

/-- **A varint takes at least one byte, and the bytes it takes determine it.** -/
theorem exists_used_of_decode {bytes : Bytes} {word : UInt64} {length : Nat}
    (h : decode bytes = some (word, length)) :
    ∃ used rest, bytes = used ++ rest ∧ used.length = length ∧ 0 < length ∧
      ∀ tail, decode (used ++ tail) = some (word, length) := by
  obtain ⟨⟨n, len⟩, hn, heq⟩ := Option.map_eq_some_iff.1 h
  obtain ⟨rfl, rfl⟩ := Prod.mk.inj heq
  obtain ⟨used, rest, hbytes, hlen, hpos, htail⟩ := exists_used_of_decodeNat hn
  exact ⟨used, rest, hbytes, hlen, hpos, fun tail => by rw [decode, htail tail]; rfl⟩

/-- **A varint that is cut short is no varint.** -/
theorem decode_eq_none_of_cut {front back : Bytes} {word : UInt64}
    (h : decode (front ++ back) = some (word, (front ++ back).length)) (hback : back ≠ []) :
    decode front = none := by
  cases hfront : decode front with
  | none => rfl
  | some p =>
    -- What `front` holds would be read from all bytes too, and takes fewer of them.
    obtain ⟨used, rest, rfl, hlen, -, htail⟩ := exists_used_of_decode hfront
    have hall := htail (rest ++ back)
    rw [← List.append_assoc, h] at hall
    have hlength := congrArg Prod.snd (Option.some.inj hall)
    have hpos := List.length_pos_iff.2 hback
    simp only [List.length_append] at hlength hlen
    omega

end Protowire.Varint
