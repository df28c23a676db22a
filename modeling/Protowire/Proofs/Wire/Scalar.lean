import Protowire.Proofs.Wire.Occurrence
import Protowire.Proofs.Wire.Tag
import Protowire.Proofs.Wire.Zigzag
import Protowire.Wire.Scalar

/-!
# Proofs/Wire/Scalar — every scalar value is read back from its payload

`Scalar.ofOccurrence_toPayload` says so for all fifteen kinds, wherever the payload stands.  It
rests on one fact for each way a value travels: text (`Bytes.toString?_ofString`), zigzag
(`Zigzag.decode32_encode32`, `Zigzag.decode64_encode64`), and words that were widened and are
narrowed again.  That words of fixed width are read back from their bytes is `Bytes.toNat_ofNat`.

The order of the values of a kind is strict and total (`Scalar.ne_of_lt`, `Scalar.eq_of_not_lt`).
-/

namespace Protowire

namespace Bytes

/-- **A word of fixed width is read back from its bytes.** -/
theorem toNat_ofNat {width n : Nat} (h : n < 256 ^ width) : toNat (ofNat width n) = n := by
  induction width generalizing n with
  | zero => exact (Nat.lt_one_iff.1 h).symm
  | succ width ih =>
    have hdiv : n / 256 < 256 ^ width := by
      rw [Nat.pow_succ] at h
      exact (Nat.div_lt_iff_lt_mul (by decide)).2 h
    rw [ofNat, toNat, ih hdiv, UInt8.toNat_ofNat']
    exact Nat.mod_add_div n 256

/-- **Text is read back from its bytes.** -/
theorem toString?_ofString (text : String) : toString? (ofString text) = some text := by
  have hvalid : text.toUTF8.IsValidUTF8 := text.isValidUTF8
  rw [toString?, ofString, Array.toArray_toList, String.fromUTF8?, dif_pos hvalid]
  rfl

end Bytes

/-! ## Payloads -/

/-- **The size of a payload is its length.** -/
@[simp] theorem Payload.length_encode (p : Payload) : p.encode.length = p.size := by
  cases p with
  | varint word => exact Varint.length_encode word
  | fixed64 word => exact Bytes.length_ofNat 8 word.toNat
  | fixed32 word => exact Bytes.length_ofNat 4 word.toNat
  | delimited bytes => rw [encode, List.length_append, Varint.length_encode, size]

namespace Scalar

/-- The value a varint payload stands for, for the kinds framed so. -/
def ofVarint? : (s : Scalar) → UInt64 → Option s.Value
  | int32, word => some word.toUInt32.toInt32
  | int64, word => some word.toInt64
  | uint32, word => some word.toUInt32
  | uint64, word => some word
  | bool, word => some (word != 0)
  | sint32, word => some (Zigzag.decode32 word.toUInt32)
  | sint64, word => some (Zigzag.decode64 word)
  | _, _ => none

/-- The value a four-byte payload stands for, for the kinds framed so. -/
def ofFixed32? : (s : Scalar) → UInt32 → Option s.Value
  | fixed32, word => some word
  | sfixed32, word => some word.toInt32
  | float, word => some word
  | _, _ => none

/-- The value an eight-byte payload stands for, for the kinds framed so. -/
def ofFixed64? : (s : Scalar) → UInt64 → Option s.Value
  | fixed64, word => some word
  | sfixed64, word => some word.toInt64
  | double, word => some word
  | _, _ => none

/-- The value a payload found in the input stands for.  Text must be UTF-8. -/
def ofOccurrence (s : Scalar) (o : Occurrence) : Except DecodeError s.Value :=
  let mismatch : DecodeError := .wireTypeMismatch s.wireType o.payload.wireType
  match o.payload with
  | .varint word => (s.ofVarint? word).elim (.error mismatch) .ok
  | .fixed32 word => (s.ofFixed32? word).elim (.error mismatch) .ok
  | .fixed64 word => (s.ofFixed64? word).elim (.error mismatch) .ok
  | .delimited payload =>
    match s with
    | bytes => .ok payload
    | string => (Bytes.toString? payload).elim (.error (.invalidUtf8 o.offset)) .ok
    | _ => .error mismatch

/-- A value travels in the framing of its kind. -/
@[simp] theorem wireType_toPayload (s : Scalar) (v : s.Value) :
    (s.toPayload v).wireType = s.wireType := by
  cases s <;> rfl

/-- **The size of a field is its length.** -/
@[simp] theorem length_encodeField (s : Scalar) (number : Nat) (v : s.Value) :
    (s.encodeField number v).length = s.fieldSize number v := by
  rw [encodeField, List.length_append, Tag.length_encode, Payload.length_encode, fieldSize]

/-- The low bits of a number that was widened with its sign are that number. -/
theorem toInt32_toUInt64 (v : Int32) : v.toInt64.toUInt64.toUInt32.toInt32 = v := by
  have hlow : (v.toBitVec.signExtend 64).setWidth 32 = v.toBitVec := by
    ext i hi
    rw [BitVec.getElem_setWidth, BitVec.getLsbD_signExtend, if_pos hi,
      decide_eq_true (Nat.lt_trans hi (by decide)), Bool.true_and, BitVec.getLsbD_eq_getElem hi]
  exact Int32.toBitVec_inj.1 hlow

/-- **Every value is read back from its payload**, wherever that stands. -/
theorem ofOccurrence_toPayload (s : Scalar) (v : s.Value) (offset body : Nat) :
    s.ofOccurrence ⟨offset, body, s.toPayload v⟩ = .ok v := by
  cases s with
  | int32 => exact congrArg Except.ok (toInt32_toUInt64 v)
  | uint32 => exact congrArg Except.ok (UInt32.toUInt32_toUInt64 v)
  | bool => cases v <;> rfl
  | sint32 =>
    have hword : (Zigzag.encode32 v).toUInt64.toUInt32 = Zigzag.encode32 v :=
      UInt32.toUInt32_toUInt64 _
    refine congrArg Except.ok ?_
    rw [hword, Zigzag.decode32_encode32]
  | sint64 => exact congrArg Except.ok (Zigzag.decode64_encode64 v)
  | string => simp only [ofOccurrence, toPayload, Bytes.toString?_ofString, Option.elim]
  | int64 | uint64 | double | float | fixed32 | fixed64 | sfixed32 | sfixed64 | bytes => rfl

/-! ## The order of the values -/

/-- No value comes before itself. -/
theorem lt_irrefl (s : Scalar) (a : s.Value) : s.lt a a = false := by
  cases s <;> simp [lt]

/-- A value that comes before another one is not that one. -/
theorem ne_of_lt {s : Scalar} {a b : s.Value} (h : s.lt a b = true) : a ≠ b := by
  rintro rfl
  exact Bool.false_ne_true ((s.lt_irrefl a).symm.trans h)

/-- **Two values of which neither comes before the other are the same.** -/
theorem eq_of_not_lt {s : Scalar} {a b : s.Value} (hab : s.lt a b = false)
    (hba : s.lt b a = false) : a = b := by
  cases s <;> simp only [lt, decide_eq_false_iff_not] at hab hba
  case double | uint64 | fixed64 =>
    exact UInt64.le_antisymm (UInt64.not_lt.1 hba) (UInt64.not_lt.1 hab)
  case float | uint32 | fixed32 =>
    exact UInt32.le_antisymm (UInt32.not_lt.1 hba) (UInt32.not_lt.1 hab)
  case int32 | sint32 | sfixed32 =>
    exact Int32.le_antisymm (Int32.not_lt.1 hba) (Int32.not_lt.1 hab)
  case int64 | sint64 | sfixed64 =>
    exact Int64.le_antisymm (Int64.not_lt.1 hba) (Int64.not_lt.1 hab)
  case bool => cases a <;> cases b <;> simp_all
  case string => exact String.le_antisymm hba hab
  case bytes => exact List.le_antisymm hba hab

end Scalar

end Protowire
