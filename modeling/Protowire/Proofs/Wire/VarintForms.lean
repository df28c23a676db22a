import Mathlib.Algebra.BigOperators.Ring.Finset
import Mathlib.Tactic.Ring
import Protowire.Proofs.Wire.Varint

/-!
# Proofs/Wire/VarintForms — which bytes are a varint, and which form of a number is the shortest

A number has a form for every number of bytes that it fits in: the bytes but the last have their
high bit set (`IsForm`), and the seven low bits of each are a digit of the number to the base 128,
lowest first (`value`).  **Reading accepts the forms and nothing else** (`decode_eq_some_iff`), and
what `encode` writes is the one form that is shortest (`size_le_of_isForm`,
`take_eq_encodeNat_of_isForm`).
-/

namespace Protowire.Varint

/-! ## Forms -/

/-- The first `n` bytes are a number in at most `groups` bytes. -/
structure IsForm (groups : Nat) (bytes : Bytes) (n : Nat) : Prop where
  pos : 1 ≤ n
  le : n ≤ groups
  enough : n ≤ bytes.length
  /-- A high bit that is set says that another byte follows. -/
  more : ∀ i < n - 1, 128 ≤ bytes.getD i 0
  last : bytes.getD (n - 1) 0 < 128
  /-- The last byte there may be holds one bit. -/
  top : n = groups → bytes.getD (n - 1) 0 ≤ 1

/-- The number whose digits to the base 128 are the low bits of the first `n` bytes, lowest
first. -/
def value (bytes : Bytes) (n : Nat) : Nat :=
  ∑ i ∈ Finset.range n, (bytes.getD i 0).toNat % 128 * 128 ^ i

variable {groups n : Nat} {b : UInt8} {rest bytes : Bytes}

theorem not_isForm_zero : ¬ IsForm 0 bytes n := fun h =>
  absurd (Nat.le_trans h.pos h.le) (Nat.not_succ_le_zero 0)

theorem not_isForm_nil : ¬ IsForm groups [] n := fun h =>
  absurd (Nat.le_trans h.pos h.enough) (Nat.not_succ_le_zero 0)

/-- **A byte with its high bit clear is a form by itself**, unless it is one too large for the last
byte there may be. -/
theorem isForm_cons_iff_of_lt (hb : b < 128) :
    IsForm (groups + 1) (b :: rest) n ↔ n = 1 ∧ (groups = 0 → b ≤ 1) := by
  constructor
  · intro h
    -- With another byte behind it, it would have its high bit set.
    have hn : n = 1 := by
      by_contra hne
      have hpos := h.pos
      exact UInt8.not_le.2 hb (h.more 0 (by omega))
    subst hn
    exact ⟨rfl, fun hzero => h.top (by rw [hzero])⟩
  · rintro ⟨rfl, htop⟩
    exact
      { pos := Nat.le_refl 1
        le := Nat.le_add_left 1 groups
        enough := Nat.le_add_left 1 rest.length
        more := fun i hi => absurd hi (Nat.not_lt_zero i)
        last := hb
        top := fun heq => htop (Nat.succ.inj heq).symm }

/-- **A byte with its high bit set is the front of a form.** -/
theorem isForm_cons_iff_of_ge (hb : 128 ≤ b) :
    IsForm (groups + 1) (b :: rest) n ↔ ∃ m, n = m + 1 ∧ IsForm groups rest m := by
  constructor
  · intro h
    rcases n with _ | _ | m
    · exact absurd h.pos (Nat.not_succ_le_zero 0)
    · exact absurd h.last (UInt8.not_lt.2 hb)
    · exact ⟨m + 1, rfl,
        { pos := Nat.le_add_left 1 m
          le := Nat.le_of_succ_le_succ h.le
          enough := Nat.le_of_succ_le_succ h.enough
          more := fun i hi => h.more (i + 1) (Nat.succ_lt_succ hi)
          last := h.last
          top := fun heq => h.top (congrArg (· + 1) heq) }⟩
  · rintro ⟨m, rfl, h⟩
    obtain ⟨m, rfl⟩ := Nat.exists_eq_add_of_le' h.pos
    exact
      { pos := Nat.le_add_left 1 (m + 1)
        le := Nat.succ_le_succ h.le
        enough := Nat.succ_le_succ h.enough
        more := fun i hi => by
          cases i with
          | zero => exact hb
          | succ i => exact h.more i (Nat.lt_of_succ_lt_succ hi)
        last := h.last
        top := fun heq => h.top (Nat.succ.inj heq) }

/-- **A form is one byte, or a byte in front of a form.** -/
@[elab_as_elim]
theorem IsForm.induction {bytes : Bytes}
    {motive : (groups n : Nat) → (bytes : Bytes) → IsForm groups bytes n → Prop}
    (last : ∀ {groups b rest} (_ : b < 128) (_ : groups = 0 → b ≤ 1)
      (h : IsForm (groups + 1) (b :: rest) 1), motive (groups + 1) 1 (b :: rest) h)
    (more : ∀ {groups n b rest} (_ : 128 ≤ b) (hrest : IsForm groups rest n)
      (h : IsForm (groups + 1) (b :: rest) (n + 1)), motive groups n rest hrest →
      motive (groups + 1) (n + 1) (b :: rest) h)
    (h : IsForm groups bytes n) : motive groups n bytes h := by
  induction groups generalizing bytes n with
  | zero => exact absurd h not_isForm_zero
  | succ groups ih =>
    obtain ⟨b, rest, rfl⟩ := List.exists_cons_of_length_pos (Nat.lt_of_lt_of_le h.pos h.enough)
    by_cases hb : b < 128
    · obtain ⟨rfl, htop⟩ := (isForm_cons_iff_of_lt hb).1 h
      exact last hb htop h
    · obtain ⟨m, rfl, hrest⟩ := (isForm_cons_iff_of_ge (UInt8.not_lt.1 hb)).1 h
      exact more (UInt8.not_lt.1 hb) hrest h (ih hrest)

@[simp] theorem value_zero (bytes : Bytes) : value bytes 0 = 0 := rfl

/-- **The first byte is the lowest digit.** -/
theorem value_cons (b : UInt8) (rest : Bytes) (n : Nat) :
    value (b :: rest) (n + 1) = b.toNat % 128 + 128 * value rest n := by
  rw [value, Finset.sum_range_succ', value, Finset.mul_sum, Nat.add_comm]
  refine congrArg₂ _ (Nat.mul_one _) (Finset.sum_congr rfl fun i _ => ?_)
  rw [List.getD_cons_succ, pow_succ]
  ring

theorem value_one_of_lt (hb : b < 128) : value (b :: rest) 1 = b.toNat := by
  rw [value_cons, value_zero, Nat.mul_zero, Nat.add_zero]
  exact Nat.mod_eq_of_lt (UInt8.lt_iff_toNat_lt.1 hb)

theorem toNat_eq_of_ge (hb : 128 ≤ b) : b.toNat = b.toNat % 128 + 128 := by
  have hge : 128 ≤ b.toNat := UInt8.le_iff_toNat_le.1 hb
  have hlt := b.toNat_lt
  omega

/-! ## Reading -/

/-- **Reading accepts the forms and nothing else**, and finds their numbers. -/
theorem decodeNat_eq_some_iff {v : Nat} :
    decodeNat groups bytes = some (v, n) ↔ IsForm groups bytes n ∧ v = value bytes n := by
  induction groups generalizing bytes v n with
  | zero => exact iff_of_false (by rintro ⟨⟩) fun h => not_isForm_zero h.1
  | succ groups ih =>
    cases bytes with
    | nil => exact iff_of_false (by rintro ⟨⟩) fun h => not_isForm_nil h.1
    | cons b rest =>
      rw [decodeNat]
      by_cases hb : b < 128
      · rw [isForm_cons_iff_of_lt hb, if_pos hb]
        split
        · rename_i hlast
          refine iff_of_false (by rintro ⟨⟩) fun h => ?_
          exact UInt8.not_le.2 hlast.2 (h.1.2 hlast.1)
        · rename_i hlast
          rw [Option.some_inj, Prod.mk.injEq]
          constructor
          · rintro ⟨rfl, rfl⟩
            refine ⟨⟨rfl, fun hzero => ?_⟩, (value_one_of_lt hb).symm⟩
            exact UInt8.not_lt.1 fun hlt => hlast ⟨hzero, hlt⟩
          · rintro ⟨⟨rfl, -⟩, rfl⟩
            exact ⟨(value_one_of_lt hb).symm, rfl⟩
      · have hge : 128 ≤ b := UInt8.not_lt.1 hb
        rw [isForm_cons_iff_of_ge hge, if_neg hb]
        split
        · rename_i hlast
          refine iff_of_false (by rintro ⟨⟩) ?_
          rintro ⟨⟨m, -, h⟩, -⟩
          exact not_isForm_zero (hlast.1 ▸ h)
        · rw [Option.map_eq_some_iff]
          constructor
          · rintro ⟨⟨w, m⟩, hrest, heq⟩
            obtain ⟨hform, rfl⟩ := ih.1 hrest
            obtain ⟨rfl, rfl⟩ := Prod.mk.inj heq
            refine ⟨⟨m, rfl, hform⟩, ?_⟩
            have := toNat_eq_of_ge hge
            rw [value_cons]
            omega
          · rintro ⟨⟨m, rfl, hform⟩, rfl⟩
            refine ⟨(value rest m, m), ih.2 ⟨hform, rfl⟩, Prod.ext ?_ rfl⟩
            have := toNat_eq_of_ge hge
            rw [value_cons]
            change b.toNat - 128 + 128 * value rest m = _
            omega

/-- **The number of a form has seven bits for each byte**, and one for the last byte there may
be. -/
theorem value_lt_of_isForm (h : IsForm groups bytes n) :
    value bytes n < 2 ^ (7 * (groups - 1) + 1) := by
  induction h using IsForm.induction with
  | @last groups b rest hb htop _ =>
    rw [value_one_of_lt hb, Nat.add_sub_cancel]
    rcases Nat.eq_zero_or_pos groups with rfl | hpos
    · exact Nat.lt_succ_of_le (UInt8.le_iff_toNat_le.1 (htop rfl))
    · exact Nat.lt_of_lt_of_le (UInt8.lt_iff_toNat_lt.1 hb)
        (Nat.pow_le_pow_right Nat.two_pos (by omega : 7 ≤ 7 * groups + 1))
  | @more groups n b rest hb hrest _ ih =>
    obtain ⟨groups, rfl⟩ := Nat.exists_eq_add_of_le' (Nat.le_trans hrest.pos hrest.le)
    have hpow : 2 ^ (7 * (groups + 1) + 1) = 128 * 2 ^ (7 * groups + 1) := by
      rw [show 7 * (groups + 1) + 1 = 7 + (7 * groups + 1) by omega, Nat.pow_add]
    rw [Nat.add_sub_cancel] at ih ⊢
    rw [value_cons, hpow]
    omega

/-! ## The shortest form -/

/-- A digit in front makes a number longer by a byte, unless there was nothing. -/
theorem log2_digit_add {d v : Nat} (hd : d < 128) :
    (d + 128 * v).log2 / 7 = if v = 0 then 0 else v.log2 / 7 + 1 := by
  split
  · exact log2_div_seven_of_lt (by omega)
  · rw [log2_eq_log2_div_add (k := 7) (by omega)]
    have hdiv : (d + 128 * v) / 2 ^ 7 = v := by omega
    rw [hdiv]
    omega

/-- **No form is shorter than the size of its number.** -/
theorem size_le_of_isForm (h : IsForm groups bytes n) : (value bytes n).log2 / 7 + 1 ≤ n := by
  induction h using IsForm.induction with
  | last hb _ _ =>
    rw [value_one_of_lt hb, log2_div_seven_of_lt (UInt8.lt_iff_toNat_lt.1 hb)]
  | more hb hrest _ ih =>
    rw [value_cons, log2_digit_add (Nat.mod_lt _ (by decide))]
    split
    · exact Nat.le_add_left 1 _
    · exact Nat.succ_le_succ ih

/-- **A form as short as that is what is written.** -/
theorem take_eq_encodeNat_of_isForm (h : IsForm groups bytes n)
    (hsize : (value bytes n).log2 / 7 + 1 = n) :
    bytes.take n = encodeNat (groups - 1) (value bytes n) := by
  induction h using IsForm.induction with
  | @last groups b rest hb htop _ =>
    have hb' : b.toNat < 128 := UInt8.lt_iff_toNat_lt.1 hb
    rw [value_one_of_lt hb, Nat.add_sub_cancel]
    cases groups with
    | zero => exact congrArg (fun b => [b]) (UInt8.ofNat_toNat).symm
    | succ groups =>
      rw [encodeNat, if_pos hb']
      exact congrArg (fun b => [b]) (UInt8.ofNat_toNat).symm
  | @more groups n b rest hb hrest _ ih =>
    obtain ⟨groups, rfl⟩ := Nat.exists_eq_add_of_le' (Nat.le_trans hrest.pos hrest.le)
    rw [value_cons, log2_digit_add (Nat.mod_lt _ (by decide))] at hsize
    have hpos := hrest.pos
    have hvalue : value rest n ≠ 0 := fun hzero => by
      rw [if_pos hzero] at hsize
      omega
    rw [if_neg hvalue] at hsize
    have hbyte := toNat_eq_of_ge hb
    have hhigh : ¬ b.toNat % 128 + 128 * value rest n < 128 := by omega
    have hmod : (b.toNat % 128 + 128 * value rest n) % 128 = b.toNat % 128 := by omega
    have hdiv : (b.toNat % 128 + 128 * value rest n) / 128 = value rest n := by omega
    rw [List.take_succ_cons, ih (Nat.succ.inj hsize), value_cons, Nat.add_sub_cancel,
      Nat.add_sub_cancel, encodeNat, if_neg hhigh, hmod, hdiv, ← hbyte]
    exact congrArg (· :: _) (UInt8.ofNat_toNat).symm

/-! ## Words -/

/-- **Which bytes are read as a word.** -/
theorem decode_eq_some_iff {word : UInt64} :
    decode bytes = some (word, n) ↔ IsForm maxSize bytes n ∧ word.toNat = value bytes n := by
  rw [decode, Option.map_eq_some_iff]
  constructor
  · rintro ⟨⟨v, m⟩, hread, heq⟩
    obtain ⟨hform, rfl⟩ := decodeNat_eq_some_iff.1 hread
    obtain ⟨rfl, rfl⟩ := Prod.mk.inj heq
    exact ⟨hform, UInt64.toNat_ofNat_of_lt (value_lt_of_isForm hform)⟩
  · rintro ⟨hform, hword⟩
    refine ⟨(value bytes n, n), decodeNat_eq_some_iff.2 ⟨hform, rfl⟩, Prod.ext ?_ rfl⟩
    rw [← hword]
    exact UInt64.ofNat_toNat

/-- **What is written is the one shortest form of a word.** -/
theorem eq_size_iff_of_decode {word : UInt64} (h : decode bytes = some (word, n)) :
    size word ≤ n ∧ (n = size word ↔ bytes.take n = encode word) := by
  obtain ⟨hform, hword⟩ := decode_eq_some_iff.1 h
  refine ⟨?_, fun hsize => ?_, fun htake => ?_⟩
  · rw [size, hword]
    exact size_le_of_isForm hform
  · rw [encode, hword]
    refine take_eq_encodeNat_of_isForm hform ?_
    rw [← hword]
    exact hsize.symm
  · rw [← length_encode, ← htake, List.length_take, Nat.min_eq_left hform.enough]

/-- **Varints are the forms of numbers, and what is written is the shortest of them.**  Bytes are
read as a word exactly when they start with a form, which is the number of that word and below 2⁶⁴;
the word is read back from what is written for it, whatever follows; and every form that it is read
from is at least as long as that, and as long only when it is that. -/
theorem forms_and_shortest_form :
    (∀ (bytes : Bytes) (word : UInt64) (n : Nat),
      decode bytes = some (word, n) ↔ IsForm maxSize bytes n ∧ word.toNat = value bytes n) ∧
    (∀ (bytes : Bytes) (n : Nat), IsForm maxSize bytes n → value bytes n < 2 ^ 64) ∧
    (∀ (word : UInt64) (tail : Bytes), decode (encode word ++ tail) = some (word, size word)) ∧
    ∀ (bytes : Bytes) (word : UInt64) (n : Nat), decode bytes = some (word, n) →
      size word ≤ n ∧ (n = size word ↔ bytes.take n = encode word) :=
  ⟨fun _ _ _ => decode_eq_some_iff, fun _ _ => value_lt_of_isForm, decode_encode,
    fun _ _ _ => eq_size_iff_of_decode⟩

/-- The number 300 in four bytes, two more than it needs, with one byte behind them. -/
theorem forms_and_shortest_form_padded :
    IsForm maxSize [0xac, 0x82, 0x80, 0x00, 0x07] 4 ∧
      value [0xac, 0x82, 0x80, 0x00, 0x07] 4 < 2 ^ 64 ∧
      decode [0xac, 0x82, 0x80, 0x00, 0x07] = some (300, 4) ∧ size 300 = 2 ∧ size 300 ≤ 4 ∧
      (4 = size 300 ↔ [0xac, 0x82, 0x80, 0x00] = encode 300) := by
  have hread : decode [0xac, 0x82, 0x80, 0x00, 0x07] = some (300, 4) := by decide
  have hform := ((forms_and_shortest_form.1 _ _ _).1 hread).1
  obtain ⟨hle, hiff⟩ := forms_and_shortest_form.2.2.2 _ _ _ hread
  exact ⟨hform, forms_and_shortest_form.2.1 _ _ hform, hread, by decide, hle, hiff⟩

end Protowire.Varint
