/-!
# Wire/Zigzag — signed numbers in order of magnitude

Zigzag sends `0, -1, 1, -2, 2, …` to `0, 1, 2, 3, 4, …`, so that a small number of either sign has
a short varint.  The sign moves to the lowest bit and, when it is set, the other bits flip.
-/

namespace Protowire.Zigzag

/-- The position of a 32-bit number in `0, -1, 1, -2, 2, …`. -/
def encode32 (n : Int32) : UInt32 :=
  ((n <<< 1) ^^^ (n >>> 31)).toUInt32

/-- The 32-bit number at a position of `0, -1, 1, -2, 2, …`. -/
def decode32 (position : UInt32) : Int32 :=
  (position >>> 1).toInt32 ^^^ -(position &&& 1).toInt32

/-- The position of a 64-bit number in `0, -1, 1, -2, 2, …`. -/
def encode64 (n : Int64) : UInt64 :=
  ((n <<< 1) ^^^ (n >>> 63)).toUInt64

/-- The 64-bit number at a position of `0, -1, 1, -2, 2, …`. -/
def decode64 (position : UInt64) : Int64 :=
  (position >>> 1).toInt64 ^^^ -(position &&& 1).toInt64

end Protowire.Zigzag
