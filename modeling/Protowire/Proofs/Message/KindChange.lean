import Mathlib.Algebra.Ring.Int.Defs
import Protowire.Proofs.Message.InPlace

/-!
# Proofs/Message/KindChange — what is left of a number that is read as another kind

Seven kinds travel as varints, so a field of one of them can be read as a field of another
(`Scalar.ReadAs`): whoever reads it does not see which kind it was.  Five of them write a number as
the word that is congruent to it, and each keeps of a word the residue that its values can be
(`Scalar.residue`).  So whatever two of the five are: the residue of the number is read
(`Scalar.exists_readAs`), which is the number itself where it fits.

The other two write the position of a number in order of magnitude, which is the same at both widths
(`Zigzag.toUInt64_encode32`).
-/

namespace Protowire

open Decode

namespace Scalar

/-! ## Numbers as words -/

/-- The word of a number is congruent to it. -/
theorem natCast_toNat_ofInt (n : Int) : ((UInt64.ofInt n).toNat : Int) = n % 2 ^ 64 := by
  rw [UInt64.ofInt, UInt64.toNat_ofNat']
  omega

/-- There is one word that is congruent to a number. -/
theorem eq_ofInt {word : UInt64} {n : Int} (h : (word.toNat : Int) = n % 2 ^ 64) :
    word = UInt64.ofInt n :=
  UInt64.toNat_inj.1 (Int.natCast_inj.1 (h.trans (natCast_toNat_ofInt n).symm))

/-- The bits of a signed number are the word that is congruent to it. -/
theorem natCast_toNat_toUInt64 (v : Int64) : (v.toUInt64.toNat : Int) = v.toInt % 2 ^ 64 := by
  have hbits : v.toInt = if 2 * v.toUInt64.toNat < 2 ^ 64 then (v.toUInt64.toNat : Int)
      else v.toUInt64.toNat - (2 ^ 64 : Nat) := BitVec.toInt_eq_toNat_cond v.toBitVec
  have hlt := v.toUInt64.toNat_lt
  split at hbits <;> omega

/-- The number a value is, for the kinds that write it as the word it is congruent to. -/
def number? : (s : Scalar) → s.Value → Option Int
  | int32, (v : Int32) => some v.toInt
  | int64, (v : Int64) => some v.toInt
  | uint32, (v : UInt32) => some v.toNat
  | uint64, (v : UInt64) => some v.toNat
  | bool, (v : Bool) => some v.toNat
  | _, _ => none

/-- What is left of a number in a value of the kind. -/
def residue : Scalar → Int → Option Int
  | int32, n => some (n.bmod (2 ^ 32))
  | int64, n => some (n.bmod (2 ^ 64))
  | uint32, n => some (n % 2 ^ 32)
  | uint64, n => some (n % 2 ^ 64)
  | bool, n => some (if n % 2 ^ 64 = 0 then 0 else 1)
  | _, _ => none

/-- **A number is written as the word it is congruent to.** -/
theorem toPayload_of_number? {s : Scalar} {v : s.Value} {n : Int} (h : s.number? v = some n) :
    s.toPayload v = .varint (UInt64.ofInt n) := by
  cases s with
  | int32 =>
    obtain rfl := Option.some.inj h
    refine congrArg Payload.varint (eq_ofInt ?_)
    rw [natCast_toNat_toUInt64, Int32.toInt_toInt64]
  | int64 =>
    obtain rfl := Option.some.inj h
    exact congrArg Payload.varint (eq_ofInt (natCast_toNat_toUInt64 v))
  | uint32 =>
    obtain rfl := Option.some.inj h
    refine congrArg Payload.varint (eq_ofInt ?_)
    have hlt := UInt32.toNat_lt v
    rw [UInt32.toNat_toUInt64]
    omega
  | uint64 =>
    obtain rfl := Option.some.inj h
    refine congrArg Payload.varint (eq_ofInt ?_)
    have hlt := UInt64.toNat_lt v
    omega
  | bool =>
    obtain rfl := Option.some.inj h
    cases v <;> rfl
  | _ => exact absurd h nofun

/-- **The residue of a number is read** from its word. -/
theorem exists_ofVarint?_eq_some {t : Scalar} {n r : Int} (h : t.residue n = some r) :
    ∃ w, t.ofVarint? (UInt64.ofInt n) = some w ∧ t.number? w = some r := by
  have hword := natCast_toNat_ofInt n
  have hlow : (n % 2 ^ 64) % 2 ^ 32 = n % 2 ^ 32 := Int.emod_emod_of_dvd n (by decide)
  rw [← h]
  cases t with
  | int32 =>
    refine ⟨_, rfl, congrArg some ?_⟩
    have hbits : (UInt64.ofInt n).toUInt32.toInt32.toInt
        = ((UInt64.ofInt n).toNat : Int).bmod (2 ^ 32) :=
      BitVec.toInt_setWidth (UInt64.ofInt n).toBitVec
    rw [hbits, hword, ← Int.emod_bmod]
    exact (congrArg (Int.bmod · (2 ^ 32)) hlow).trans (Int.emod_bmod n (2 ^ 32))
  | int64 =>
    refine ⟨_, rfl, congrArg some ?_⟩
    have hbits : (UInt64.ofInt n).toInt64.toInt = ((UInt64.ofInt n).toNat : Int).bmod (2 ^ 64) :=
      BitVec.toInt_eq_toNat_bmod (UInt64.ofInt n).toBitVec
    rw [hbits, hword]
    exact Int.emod_bmod n (2 ^ 64)
  | uint32 =>
    refine ⟨_, rfl, congrArg some ?_⟩
    rw [UInt64.toNat_toUInt32, Int.natCast_emod, hword]
    exact hlow
  | uint64 => exact ⟨_, rfl, congrArg some hword⟩
  | bool =>
    refine ⟨_, rfl, congrArg some ?_⟩
    by_cases hzero : UInt64.ofInt n = 0
    · have hn : n % 2 ^ 64 = 0 := by rw [← hword, hzero]; rfl
      rw [bne_eq_false_iff_eq.2 hzero, if_pos hn]
      rfl
    · have hn : ¬ n % 2 ^ 64 = 0 := fun hn =>
        hzero (UInt64.toNat_inj.1 (Int.natCast_inj.1 (hword.trans hn)))
      rw [bne_iff_ne.2 hzero, if_neg hn]
      rfl
  | _ => exact absurd h nofun

/-! ## Reading a field as another kind -/

/-- **A field of one kind is read as one of another**: under every number that a tag can carry, its
tag is read wherever it stands, and then a value of the other kind, which takes all its bytes. -/
def ReadAs (s t : Scalar) (v : s.Value) (w : t.Value) : Prop :=
  ∀ number, 1 ≤ number → number ≤ FieldNumber.max →
    ReadsField number s.wireType (t.merge s.wireType) (s.encodeField number v) w

/-- A word is read as any kind that is made of words. -/
theorem readAs_of_ofVarint? {s t : Scalar} {v : s.Value} {w : t.Value} {word : UInt64}
    (hs : s.toPayload v = .varint word) (ht : t.ofVarint? word = some w) : s.ReadAs t v w := by
  intro number hpos hmax
  have hfrom : s.wireType = .varint := by rw [← s.wireType_toPayload v, hs]; rfl
  have hto : t.wireType = .varint := by
    cases t <;> first | rfl | exact absurd ht nofun
  have hreads : Reads (t.merge .varint) (Payload.varint word).encode w := fun n => by
    rw [merge_eq]
    refine Reader.takeUp_readsAt (p := .varint word) True.intro rfl ?_ fun body => ?_
    · rw [hto, WireType.check_self]
    · show (t.ofVarint? word).elim _ Except.ok = .ok w
      rw [ht]
      rfl
  rw [encodeField, hs, hfrom]
  exact hreads.field hpos hmax .varint

/-- **A number is read as its residue** in the other kind. -/
theorem exists_readAs {s t : Scalar} {v : s.Value} {n r : Int} (hs : s.number? v = some n)
    (ht : t.residue n = some r) : ∃ w, s.ReadAs t v w ∧ t.number? w = some r := by
  obtain ⟨w, hw, hr⟩ := exists_ofVarint?_eq_some ht
  exact ⟨w, readAs_of_ofVarint? (toPayload_of_number? hs) hw, hr⟩

/-- Zigzag numbers are read as the same number at the larger width. -/
theorem sint32_readAs_sint64 (x : Int32) : ReadAs .sint32 .sint64 x x.toInt64 := by
  refine readAs_of_ofVarint? rfl (congrArg some ?_)
  rw [Zigzag.toUInt64_encode32, Zigzag.decode64_encode64]

/-- What travels as a word is true when the word is not zero. -/
theorem exists_readAs_bool {s : Scalar} (hs : s.wireType = .varint) (v : s.Value) :
    ∃ (word : UInt64) (b : Bool), s.toPayload v = .varint word ∧ ReadAs s .bool v b ∧
      (b = true ↔ word ≠ 0) := by
  obtain ⟨word, hword⟩ : ∃ word, s.toPayload v = .varint word := by
    cases s <;> first | exact ⟨_, rfl⟩ | exact absurd hs nofun
  exact ⟨word, word != 0, hword, readAs_of_ofVarint? hword rfl, bne_iff_ne⟩

/-- **Integer kinds are wire compatible.**  A number that is written as one of the kinds that travel
as varints, and read as another, is:
* the same number, from `int32` to `int64`, from `uint32` to `uint64` and to `int64`, and from
  `sint32` to `sint64`;
* what 32 bits with a sign keep of it, from `int64` to `int32` and to enum values;
* the same bits, from `uint32` to `int32`;
* one or zero, from `bool` to each of the other four that travel as they are;
* true, from any of the seven kinds to `bool`, exactly when its word is not zero. -/
theorem integer_kinds_compatible :
    (∀ x : Int32, ∃ w : Int64, ReadAs .int32 .int64 x w ∧ w.toInt = x.toInt) ∧
    (∀ y : Int64, ∃ w : Int32, ReadAs .int64 .int32 y w ∧ ReadAs .int64 .enumeration y w ∧
      w.toInt = y.toInt.bmod (2 ^ 32)) ∧
    (∀ u : UInt32,
      (∃ w : UInt64, ReadAs .uint32 .uint64 u w ∧ w.toNat = u.toNat) ∧
      (∃ w : Int64, ReadAs .uint32 .int64 u w ∧ w.toInt = u.toNat) ∧
      ∃ w : Int32, ReadAs .uint32 .int32 u w ∧ w.toBitVec = u.toBitVec) ∧
    (∀ x : Int32, ∃ w : Int64, ReadAs .sint32 .sint64 x w ∧ w.toInt = x.toInt) ∧
    (∀ b : Bool,
      ReadAs .bool .int32 b (if b then 1 else 0) ∧ ReadAs .bool .int64 b (if b then 1 else 0) ∧
      ReadAs .bool .uint32 b (if b then 1 else 0) ∧ ReadAs .bool .uint64 b (if b then 1 else 0)) ∧
    ∀ (s : Scalar) (v : s.Value), s.wireType = .varint →
      ∃ (word : UInt64) (b : Bool), s.toPayload v = .varint word ∧ ReadAs s .bool v b ∧
        (b = true ↔ word ≠ 0) := by
  refine ⟨fun x => ?_, fun y => ?_, fun u => ⟨?_, ?_, ?_⟩, fun x => ?_, fun b => ?_,
    fun s v hs => exists_readAs_bool hs v⟩
  · obtain ⟨w, hread, hw⟩ := exists_readAs (s := int32) (t := int64) (v := x) rfl rfl
    have hle := x.le_toInt
    have hlt := x.toInt_lt
    exact ⟨w, hread, (Option.some.inj hw).trans
      (Int.bmod_eq_of_le_mul_two (by omega) (by omega))⟩
  · obtain ⟨w, hread, hw⟩ := exists_readAs (s := int64) (t := int32) (v := y) rfl rfl
    exact ⟨w, hread, hread, Option.some.inj hw⟩
  · obtain ⟨w, hread, hw⟩ := exists_readAs (s := uint32) (t := uint64) (v := u) rfl rfl
    have hn : (w.toNat : Int) = u.toNat % 2 ^ 64 := Option.some.inj hw
    have hlt := u.toNat_lt
    exact ⟨w, hread, by omega⟩
  · obtain ⟨w, hread, hw⟩ := exists_readAs (s := uint32) (t := int64) (v := u) rfl rfl
    have hlt := u.toNat_lt
    exact ⟨w, hread, (Option.some.inj hw).trans
      (Int.bmod_eq_of_le_mul_two (by omega) (by omega))⟩
  · obtain ⟨w, hread, hw⟩ := exists_readAs (s := uint32) (t := int32) (v := u) rfl rfl
    have hn : w.toBitVec.toInt = u.toBitVec.toInt :=
      (Option.some.inj hw).trans (BitVec.toInt_eq_toNat_bmod u.toBitVec).symm
    exact ⟨w, hread, BitVec.eq_of_toInt_eq hn⟩
  · exact ⟨x.toInt64, sint32_readAs_sint64 x, x.toInt_toInt64⟩
  · cases b <;> exact ⟨readAs_of_ofVarint? rfl rfl, readAs_of_ofVarint? rfl rfl,
      readAs_of_ofVarint? rfl rfl, readAs_of_ofVarint? rfl rfl⟩

/-- Minus one is read from `int32` as minus one, and as true; and it is the eleven bytes of the field
that are read. -/
theorem integer_kinds_compatible_minus_one :
    encodeField .int32 1 (-1 : Int32)
      = [0x08, 0xff, 0xff, 0xff, 0xff, 0xff, 0xff, 0xff, 0xff, 0xff, 0x01] ∧
    ReadAs .int32 .int64 (-1 : Int32) (-1 : Int64) ∧
    ReadAs .int32 .bool (-1 : Int32) true := by
  obtain ⟨hwide, -, -, -, -, hbool⟩ := integer_kinds_compatible
  obtain ⟨w, hread, hw⟩ := hwide (-1)
  obtain rfl : w = -1 := Int64.toInt_inj.1 hw
  obtain ⟨word, b, hword, htrue, hb⟩ := hbool .int32 (-1 : Int32) rfl
  obtain rfl : _ = word := Payload.varint.inj hword
  obtain rfl : b = true := hb.2 (by decide)
  exact ⟨by decide, hread, htrue⟩

end Scalar

end Protowire
