import Protowire.Wire.Bytes

/-!
# Text/Hex — bytes as pairs of hexadecimal digits
-/

namespace Protowire

/-- The hexadecimal digit of a number below sixteen, in small letters. -/
def Text.hexDigit (n : Nat) : Char :=
  if n < 10 then Char.ofNat ('0'.toNat + n) else Char.ofNat ('a'.toNat + n - 10)

/-- The bytes as text, two hexadecimal digits each, the high one first. -/
def Bytes.toHex (bytes : Bytes) : String :=
  String.ofList <| bytes.flatMap fun b =>
    [Text.hexDigit (b.toNat / 16), Text.hexDigit (b.toNat % 16)]

end Protowire
