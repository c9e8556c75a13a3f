/-
Public keys and signatures as blocks record them.

Both are byte strings of any length: a block may carry a key that belongs to nobody or a
signature that signs nothing, and it is verification that tells.  The key made of zeros
stands for no miner; so does, for every purpose, any other key without a nonzero byte,
the empty one included.
-/
import AttestedLedger.Bytes.Hex
import AttestedLedger.Curve.Ecdsa

namespace AttestedLedger

/-- The key of a miner, a sender, a recipient or a verifier. -/
structure MinerKey where
  bytes : Bytes
  deriving DecidableEq

/-- A signature as a block or a reply carries it. -/
structure Signature where
  bytes : Bytes
  deriving DecidableEq

namespace MinerKey

instance : Hashable MinerKey := ⟨fun k => hash k.bytes⟩

/-- The key of the first block: the length of a compressed point, all zeros. -/
def zero : MinerKey := ⟨List.replicate 33 0⟩

instance : Inhabited MinerKey := ⟨zero⟩

/-- Whether no byte of the key is nonzero. -/
def isZero (key : MinerKey) : Bool := key.bytes.all (· == 0)

/-- The hexadecimal text of the key. -/
def toHex (key : MinerKey) : String := Hex.encode key.bytes

instance : ToString MinerKey := ⟨toHex⟩

/-- The first twelve digits. -/
def short (key : MinerKey) : String := String.ofList ((Hex.encodeChars key.bytes).take 12)

/-- Whether a signature is this key's over the payload.  A key or a signature of a wrong form
verifies nothing. -/
def verifies (key : MinerKey) (payload : Bytes) (signature : Signature) : Bool :=
  match Secp256k1.parsePoint key.bytes with
  | some point => Ecdsa.verify point (Sha256.digest payload) signature.bytes
  | none => false

end MinerKey

end AttestedLedger
