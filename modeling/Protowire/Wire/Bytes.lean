/-!
# Wire/Bytes — byte strings, little-endian words and UTF-8 text

A byte string is a list of bytes.  A word of fixed width is written **lowest byte first**
(`Bytes.ofNat`) and read back by `Bytes.toNat`; text travels as its UTF-8 bytes, and bytes that are
no UTF-8 are refused (`Bytes.toString?`).
-/

namespace Protowire

/-- A byte string. -/
abbrev Bytes := List UInt8

namespace Bytes

/-- The `width` lowest bytes of `n`, lowest first. -/
def ofNat : (width n : Nat) → Bytes
  | 0, _ => []
  | width + 1, n => n.toUInt8 :: ofNat width (n / 256)

/-- The number whose bytes, lowest first, are the given ones. -/
def toNat : Bytes → Nat
  | [] => 0
  | b :: bs => b.toNat + 256 * toNat bs

/-- A word of fixed width takes exactly that many bytes. -/
@[simp] theorem length_ofNat (width n : Nat) : (ofNat width n).length = width := by
  induction width generalizing n with
  | zero => rfl
  | succ width ih => simp [ofNat, ih]

/-- The UTF-8 bytes of a text. -/
def ofString (text : String) : Bytes :=
  text.toUTF8.data.toList

/-- The text whose UTF-8 bytes these are, if they are valid UTF-8. -/
def toString? (bytes : Bytes) : Option String :=
  String.fromUTF8? ⟨bytes.toArray⟩

end Bytes

end Protowire
