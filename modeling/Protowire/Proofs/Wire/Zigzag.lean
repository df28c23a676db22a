import Mathlib.Logic.Function.Basic
import Protowire.Wire.Zigzag

/-!
# Proofs/Wire/Zigzag — the words of a width are its numbers in order of magnitude

Zigzag gives each number the word that says at which place of `0, -1, 1, -2, 2, …` it stands
(`CountsByMagnitude`).  All of it is proved once for words of any width, and the two widths there
are take it over (`countsByMagnitude`):

* `decode_encode`, `encode_decode` — a number is read back from its word, and a word from its
  number, since both sides flip the same bits;
* `toNat_eq_position` — where a number is sent does not depend on the width;
* `encode?_eq`, `decode?_eq` — no step on the way leaves the words of the width.
-/

namespace Protowire.Zigzag

variable {w : Nat}

/-! ## Signs -/

/-- The highest bit is the sign. -/
theorem getElem_last (x : BitVec (w + 1)) : x[w] = x.msb := by
  rw [BitVec.msb_eq_getLsbD_last, ← BitVec.getLsbD_eq_getElem]
  rfl

/-- A number shifted right as far as it goes is its sign, spread over the whole width. -/
theorem sshiftRight_last (x : BitVec (w + 1)) :
    x.sshiftRight w = if x.msb then BitVec.allOnes (w + 1) else 0#(w + 1) := by
  ext i hi
  have hbit : (x.sshiftRight w)[i] = x.msb := by
    rw [BitVec.getElem_sshiftRight]
    split
    · obtain rfl : i = 0 := by omega
      exact getElem_last x
    · rfl
  rw [hbit]
  cases x.msb <;> simp

/-- The lowest bit, negated, is that bit spread over the whole width. -/
theorem neg_and_one (z : BitVec (w + 1)) :
    -(z &&& 1#(w + 1)) = if z.getLsbD 0 then BitVec.allOnes (w + 1) else 0#(w + 1) := by
  rw [BitVec.and_one_eq_setWidth_ofBool_getLsbD]
  cases z.getLsbD 0
  · simp
  · simp [BitVec.neg_one_eq_allOnes]

/-! ## There and back -/

/-- **The bits of a number are read back from its position.**  The sign is the lowest bit of the
position, so both sides flip the same bits. -/
theorem decode_encode {x z : BitVec (w + 1)} (hz : z = (x <<< 1) ^^^ x.sshiftRight w) :
    (z >>> 1) ^^^ -(z &&& 1#(w + 1)) = x := by
  have hlow : z.getLsbD 0 = x.msb := by
    rw [hz, sshiftRight_last]
    cases x.msb <;> simp
  rw [neg_and_one, hlow, hz, sshiftRight_last]
  ext i hi
  rcases Nat.lt_or_eq_of_le (Nat.le_of_lt_succ hi) with hlt | rfl
  · have hin : 1 + i < w + 1 := by omega
    cases x.msb <;> simp [hin]
  -- The highest bit comes from the sign alone.
  · rw [← getElem_last x]
    cases x[i] <;> simp [Nat.add_comm 1 i]

/-- **The bits of a position are read back from its number.**  The lowest bit of the position is
the sign. -/
theorem encode_decode {x z : BitVec (w + 1)} (hx : x = (z >>> 1) ^^^ -(z &&& 1#(w + 1))) :
    (x <<< 1) ^^^ x.sshiftRight w = z := by
  have hsign : x.msb = z.getLsbD 0 := by
    rw [hx, neg_and_one, BitVec.msb_xor, BitVec.msb_ushiftRight]
    cases z.getLsbD 0
    · simp
    · simp [BitVec.msb_allOnes]
  rw [sshiftRight_last, hsign]
  ext i hi
  cases i with
  -- The lowest bit comes from the sign alone.
  | zero => cases h : z.getLsbD 0 <;> simp [← BitVec.getLsbD_eq_getElem, h]
  | succ i =>
    have hin : i < w := by omega
    rw [hx, neg_and_one]
    cases z.getLsbD 0 <;> simp [Nat.add_comm 1 i, hin]

/-! ## Positions -/

/-- The position of an integer in `0, -1, 1, -2, 2, …`. -/
def position (n : Int) : Nat :=
  if 0 ≤ n then 2 * n.toNat else 2 * (-n).toNat - 1

theorem coe_position (n : Int) : (position n : Int) = if 0 ≤ n then 2 * n else -2 * n - 1 := by
  rw [position]
  split <;> omega

/-- **What is closer to zero comes first**, and of two numbers that are equally far the negative
one. -/
theorem position_lt_iff {a b : Int} :
    position a < position b ↔ a.natAbs < b.natAbs ∨ a.natAbs = b.natAbs ∧ a < b := by
  rw [position, position]
  split <;> split <;> omega

/-- **At every width, a number is sent to its position.**  A negative one has its highest bit set:
its bits flip after they move up. -/
theorem toNat_eq_position (x : BitVec (w + 1)) :
    ((x <<< 1) ^^^ x.sshiftRight w).toNat = position x.toInt := by
  have hlt := x.isLt
  have hdouble : 2 ^ (w + 1) = 2 * 2 ^ w := Nat.pow_succ'
  rw [sshiftRight_last, position, BitVec.toInt_eq_msb_cond]
  cases hmsb : x.msb with
  | false =>
    have hsmall : x.toNat < 2 ^ w := BitVec.toNat_lt_of_msb_false hmsb
    have hshift : (x <<< 1).toNat = 2 * x.toNat := by
      rw [BitVec.toNat_shiftLeft, Nat.shiftLeft_eq, Nat.mod_eq_of_lt (by omega)]
      omega
    simp only [Bool.false_eq_true, if_false, BitVec.xor_zero, hshift]
    split <;> omega
  | true =>
    have hlarge : 2 ^ w ≤ x.toNat := BitVec.le_toNat_of_msb_true hmsb
    have hshift : (x <<< 1).toNat = 2 * x.toNat - 2 ^ (w + 1) := by
      rw [BitVec.toNat_shiftLeft, Nat.shiftLeft_eq, Nat.mod_eq_sub_mod (by omega),
        Nat.mod_eq_of_lt (by omega)]
      omega
    simp only [if_true, BitVec.xor_allOnes, BitVec.toNat_not, hshift]
    split <;> omega

/-! ## Arithmetic that stops

The steps of zigzag in arithmetic that does not go on where a result is out of range.  A shift may
drop bits, and is out of range only when it is as far as the word is wide; a number may be negated
unless it is the least one, whose negation is larger than all there are. -/

/-- The word shifted to the left. -/
def shiftLeft? (x : BitVec w) (n : Nat) : Option (BitVec w) :=
  if n < w then some (x <<< n) else none

/-- The word shifted to the right, with zeros coming in. -/
def shiftRight? (x : BitVec w) (n : Nat) : Option (BitVec w) :=
  if n < w then some (x >>> n) else none

/-- The word shifted to the right, with its sign coming in. -/
def sshiftRight? (x : BitVec w) (n : Nat) : Option (BitVec w) :=
  if n < w then some (x.sshiftRight n) else none

/-- The number with the other sign. -/
def neg? (x : BitVec w) : Option (BitVec w) :=
  if x = BitVec.intMin w then none else some (-x)

/-- The position of a number. -/
def encode? (x : BitVec w) : Option (BitVec w) := do
  let doubled ← shiftLeft? x 1
  let sign ← sshiftRight? x (w - 1)
  return doubled ^^^ sign

/-- The number at a position. -/
def decode? (z : BitVec w) : Option (BitVec w) := do
  let half ← shiftRight? z 1
  let sign ← neg? (z &&& 1#w)
  return half ^^^ sign

/-- **The way to a position never stops.** -/
theorem encode?_eq (x : BitVec (w + 2)) :
    encode? x = some ((x <<< 1) ^^^ x.sshiftRight (w + 1)) := by
  have hdoubled : shiftLeft? x 1 = some (x <<< 1) := if_pos (by omega)
  have hsign : sshiftRight? x (w + 1) = some (x.sshiftRight (w + 1)) := if_pos (by omega)
  rw [encode?, hdoubled, Nat.add_succ_sub_one, hsign]
  rfl

/-- A single bit is not the least number, when there are more bits than one. -/
theorem and_one_ne_intMin (z : BitVec (w + 2)) : z &&& 1#(w + 2) ≠ BitVec.intMin (w + 2) := by
  intro h
  have hmsb := congrArg BitVec.msb h
  rw [BitVec.msb_intMin] at hmsb
  simp at hmsb

/-- **The way back from a position never stops.** -/
theorem decode?_eq (z : BitVec (w + 2)) :
    decode? z = some ((z >>> 1) ^^^ -(z &&& 1#(w + 2))) := by
  have hhalf : shiftRight? z 1 = some (z >>> 1) := if_pos (by omega)
  have hsign : neg? (z &&& 1#(w + 2)) = some (-(z &&& 1#(w + 2))) := if_neg (and_one_ne_intMin z)
  rw [decode?, hhalf, hsign]
  rfl

/-! ## The two widths -/

/-- The words of a width count its numbers by magnitude: each number has the word that says where it
stands in `0, -1, 1, -2, 2, …`, each word has one number, and neither way ever stops. -/
structure CountsByMagnitude {Number Word : Type} (number : Number → BitVec w)
    (word : Word → BitVec w) (encode : Number → Word) (decode : Word → Number) : Prop where
  position (n : Number) : ((word (encode n)).toNat : Int) =
    if 0 ≤ (number n).toInt then 2 * (number n).toInt else -2 * (number n).toInt - 1
  decode_encode (n : Number) : decode (encode n) = n
  encode_decode (p : Word) : encode (decode p) = p
  /-- What is closer to zero comes first, and of two that are equally far the negative one. -/
  lt_iff (a b : Number) : (word (encode a)).toNat < (word (encode b)).toNat ↔
    (number a).toInt.natAbs < (number b).toInt.natAbs ∨
      (number a).toInt.natAbs = (number b).toInt.natAbs ∧ (number a).toInt < (number b).toInt
  encode_fits (n : Number) : encode? (number n) = some (word (encode n))
  decode_fits (p : Word) : decode? (word p) = some (number (decode p))

/-- **Whatever works on the bits as zigzag does counts by magnitude**, at every width of two bits or
more. -/
theorem countsByMagnitude {Number Word : Type} {number : Number → BitVec (w + 2)}
    {word : Word → BitVec (w + 2)} {encode : Number → Word} {decode : Word → Number}
    (hnumber : Function.Injective number) (hword : Function.Injective word)
    (hencode : ∀ n, word (encode n) = (number n <<< 1) ^^^ (number n).sshiftRight (w + 1))
    (hdecode : ∀ p, number (decode p) = (word p >>> 1) ^^^ -(word p &&& 1#(w + 2))) :
    CountsByMagnitude number word encode decode where
  position n := by rw [hencode, toNat_eq_position, coe_position]
  decode_encode n := hnumber (by rw [hdecode]; exact Zigzag.decode_encode (hencode n))
  encode_decode p := hword (by rw [hencode]; exact Zigzag.encode_decode (hdecode p))
  lt_iff a b := by
    rw [hencode, hencode, toNat_eq_position, toNat_eq_position, position_lt_iff]
  encode_fits n := by rw [encode?_eq, hencode]
  decode_fits p := by rw [decode?_eq, hdecode]

theorem countsByMagnitude32 :
    CountsByMagnitude Int32.toBitVec UInt32.toBitVec encode32 decode32 :=
  countsByMagnitude (fun _ _ => Int32.toBitVec_inj.1) (fun _ _ => UInt32.toBitVec_inj.1)
    (fun _ => rfl) (fun _ => rfl)

theorem countsByMagnitude64 :
    CountsByMagnitude Int64.toBitVec UInt64.toBitVec encode64 decode64 :=
  countsByMagnitude (fun _ _ => Int64.toBitVec_inj.1) (fun _ _ => UInt64.toBitVec_inj.1)
    (fun _ => rfl) (fun _ => rfl)

/-- A number is read back from its position. -/
theorem decode32_encode32 (n : Int32) : decode32 (encode32 n) = n :=
  countsByMagnitude32.decode_encode n

/-- A number is read back from its position. -/
theorem decode64_encode64 (n : Int64) : decode64 (encode64 n) = n :=
  countsByMagnitude64.decode_encode n

/-- **A number has the same position at both widths.** -/
theorem toUInt64_encode32 (n : Int32) : (encode32 n).toUInt64 = encode64 n.toInt64 := by
  have h32 : (encode32 n).toNat = position n.toInt := toNat_eq_position n.toBitVec
  have h64 : (encode64 n.toInt64).toNat = position n.toInt64.toInt :=
    toNat_eq_position n.toInt64.toBitVec
  rw [← UInt64.toNat_inj, UInt32.toNat_toUInt64, h32, h64, Int32.toInt_toInt64]

/-- **A position has the same number at both widths**, if the narrow one has it. -/
theorem decode64_toUInt64 (p : UInt32) : decode64 p.toUInt64 = (decode32 p).toInt64 := by
  calc decode64 p.toUInt64
      = decode64 (encode32 (decode32 p)).toUInt64 := by rw [countsByMagnitude32.encode_decode]
    _ = decode64 (encode64 (decode32 p).toInt64) := by rw [toUInt64_encode32]
    _ = (decode32 p).toInt64 := decode64_encode64 _

/-- **Zigzag counts the numbers of either width by magnitude, and both widths agree.**  A number `n`
has the word `2n`, or `-2n - 1` when it is negative, and every word is that of one number; what is
closer to zero has the smaller word.  No step on the way there or back is out of range.  A number of
the narrow width has the same word at the wide one, and is read back there. -/
theorem numbers_in_order_of_magnitude :
    CountsByMagnitude Int32.toBitVec UInt32.toBitVec encode32 decode32 ∧
    CountsByMagnitude Int64.toBitVec UInt64.toBitVec encode64 decode64 ∧
    (∀ n : Int32, encode64 n.toInt64 = (encode32 n).toUInt64) ∧
    ∀ p : UInt32, decode64 p.toUInt64 = (decode32 p).toInt64 :=
  ⟨countsByMagnitude32, countsByMagnitude64, fun n => (toUInt64_encode32 n).symm,
    decode64_toUInt64⟩

end Protowire.Zigzag
