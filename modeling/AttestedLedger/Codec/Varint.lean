/-
Integers of variable width.

A number below 253 is one byte.  Larger numbers are a marker byte, 253, 254 or 255,
followed by the number in two, four or eight bytes.  The writer takes the narrowest
form; the reader accepts any form, so a number has more than one spelling and only the
written one is shortest.
-/
import AttestedLedger.Codec.Decoder

namespace AttestedLedger.Varint

/-- The narrowest form of a number below `2 ^ 64`. -/
def encode (n : Nat) : Bytes :=
  if n ≤ 0xfc then [UInt8.ofNat n]
  else if n ≤ 0xffff then 0xfd :: Bytes.littleEndian 2 n
  else if n ≤ 0xffffffff then 0xfe :: Bytes.littleEndian 4 n
  else 0xff :: Bytes.littleEndian 8 n

/-- The number in front of the input, in any of its forms. -/
def decode : Decoder Nat := fun
  | [] => .error .truncated
  | marker :: rest =>
    if marker ≤ 0xfc then .ok (marker.toNat, rest)
    else if marker = 0xfd then Decoder.word 2 rest
    else if marker = 0xfe then Decoder.word 4 rest
    else Decoder.word 8 rest

end AttestedLedger.Varint
