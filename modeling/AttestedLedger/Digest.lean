/-
Digests: the 32-byte names of blocks and transactions.

A digest is shown as 64 hexadecimal digits.  Its first eight bytes, read as a number
with the most significant byte first, are what proof of work compares with a target.
-/
import AttestedLedger.Bytes.Hex

namespace AttestedLedger

/-- A string of exactly 32 bytes. -/
structure Digest where
  bytes : Bytes
  length_eq : bytes.length = 32
  deriving DecidableEq

namespace Digest

instance : Hashable Digest := ⟨fun d => hash d.bytes⟩

/-- Why bytes or text give no digest. -/
inductive Error where
  | wrongLength (actual : Nat)
  | badHex (fault : Hex.Error)
  deriving DecidableEq, Repr

/-- The text shown for an error. -/
def Error.message : Error → String
  | .wrongLength actual => s!"Invalid hash length: expected 32, got {actual}"
  | .badHex fault => s!"Invalid hex string: {fault.message}"

/-- The digest made of zeros, which no block's name is expected to be. -/
def zero : Digest := ⟨List.replicate 32 0, rfl⟩

instance : Inhabited Digest := ⟨zero⟩

/-- Whether every byte is zero. -/
def isZero (d : Digest) : Bool := d = zero

/-- The digest with these bytes. -/
def ofBytes (bytes : Bytes) : Except Error Digest :=
  if h : bytes.length = 32 then .ok ⟨bytes, h⟩ else .error (.wrongLength bytes.length)

/-- The digest with this hexadecimal text. -/
def ofHex (text : String) : Except Error Digest :=
  match Hex.decode text with
  | .ok bytes => ofBytes bytes
  | .error e => .error (.badHex e)

/-- The 64 hexadecimal digits. -/
def toHex (d : Digest) : String := Hex.encode d.bytes

instance : ToString Digest := ⟨toHex⟩

/-- The first eight bytes as a number. -/
def top64 (d : Digest) : UInt64 := UInt64.ofNat (Bytes.bigEndianValue (d.bytes.take 8))

end Digest

end AttestedLedger
