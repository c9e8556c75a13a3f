/-
Hexadecimal text.

`encode` writes two lower-case digits per byte; `decode` takes either case.  A text
of odd length is refused before any digit is looked at, and otherwise the first
character that is not a digit is reported with its position.  Positions count bytes
of the text's UTF-8 form, so a character outside ASCII is reported by its first byte.
-/
import AttestedLedger.Bytes
import AttestedLedger.Text.Literal
import AttestedLedger.Text.Utf8

namespace AttestedLedger.Hex

/-- Why a text is not the hexadecimal form of a byte string. -/
inductive Error where
  | oddLength
  | invalidCharacter (byte : UInt8) (position : Nat)
  deriving DecidableEq, Repr

/-- The text shown for an error. -/
def Error.message : Error → String
  | .oddLength => "Odd number of digits"
  | .invalidCharacter byte position =>
    s!"Invalid character {Text.charLiteral (Char.ofNat byte.toNat)} at position {position}"

/-- The lower-case digit of a number below sixteen. -/
def digit (n : Nat) : Char := "0123456789abcdef".toList.getD n '0'

/-- Two lower-case digits per byte. -/
def encodeChars (bytes : Bytes) : List Char :=
  bytes.flatMap fun b => [digit (b.toNat / 16), digit (b.toNat % 16)]

/-- The hexadecimal text of a byte string. -/
def encode (bytes : Bytes) : String := String.ofList (encodeChars bytes)

/-- The value of a digit of either case, given by its ASCII code. -/
def digitValue (b : UInt8) : Option Nat :=
  if 48 ≤ b ∧ b ≤ 57 then some (b.toNat - 48)
  else if 97 ≤ b ∧ b ≤ 102 then some (b.toNat - 87)
  else if 65 ≤ b ∧ b ≤ 70 then some (b.toNat - 55)
  else none

/-- Read digit pairs from `position` on. -/
def decodeFrom (position : Nat) : Bytes → Except Error Bytes
  | [] => .ok []
  | [_] => .error .oddLength
  | hi :: lo :: rest =>
    match digitValue hi, digitValue lo with
    | none, _ => .error (.invalidCharacter hi position)
    | some _, none => .error (.invalidCharacter lo (position + 1))
    | some h, some l => (decodeFrom (position + 2) rest).map (UInt8.ofNat (16 * h + l) :: ·)

/-- The byte string a text denotes. -/
def decode (text : String) : Except Error Bytes :=
  let digits := Utf8.encode text
  if digits.length % 2 = 1 then .error .oddLength else decodeFrom 0 digits

end AttestedLedger.Hex
