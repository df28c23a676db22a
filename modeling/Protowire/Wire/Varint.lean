import Protowire.Wire.Bytes

/-!
# Wire/Varint — base-128 integers of at most 64 bits

A varint holds seven bits a byte, lowest group first; a set high bit says that another byte
follows.  Ten groups cover 64 bits, and the tenth has room for one bit only.  `encode` writes the
shortest form and `size` is its length by a formula; `decode` reads any form, also one padded
with empty groups.
-/

namespace Protowire.Varint

/-- The most bytes a varint may take. -/
def maxSize : Nat := 10

/-- The shortest form of `n` in at most `groups + 1` bytes. -/
def encodeNat : (groups n : Nat) → Bytes
  | 0, n => [n.toUInt8]
  | groups + 1, n =>
    if n < 128 then [n.toUInt8] else (n % 128 + 128).toUInt8 :: encodeNat groups (n / 128)

/-- The shortest form of a word. -/
def encode (word : UInt64) : Bytes :=
  encodeNat (maxSize - 1) word.toNat

/-- The length of the shortest form: one byte for every seven bits, and one for zero. -/
def size (word : UInt64) : Nat :=
  word.toNat.log2 / 7 + 1

/-- The number at the front of the bytes and how many bytes it takes, when it takes at most
`groups` of them.  The last group allowed may hold one bit only. -/
def decodeNat : (groups : Nat) → Bytes → Option (Nat × Nat)
  | 0, _ => none
  | _, [] => none
  | groups + 1, b :: rest =>
    if groups = 0 ∧ 1 < b then none
    else if b < 128 then some (b.toNat, 1)
    else (decodeNat groups rest).map fun (n, length) => (b.toNat - 128 + 128 * n, length + 1)

/-- The word at the front of the bytes and how many bytes it takes. -/
def decode (bytes : Bytes) : Option (UInt64 × Nat) :=
  (decodeNat maxSize bytes).map fun (n, length) => (UInt64.ofNat n, length)

end Protowire.Varint
