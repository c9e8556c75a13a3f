/-
A node's identity: the secret that signs its attestations and owns its blocks.

A secret is a scalar from 1 to the order of the curve less one, given by 32 bytes.  The
public key follows from it and is recorded in its 33-byte form.
-/
import AttestedLedger.Key.Basic

namespace AttestedLedger

/-- A secret scalar of the right range. -/
structure Identity where
  secret : Nat
  positive : 0 < secret
  belowOrder : secret < Secp256k1.groupOrder

namespace Identity

/-- The identity with these secret bytes, unless they are not 32 or are out of range. -/
def ofSecret? (bytes : Bytes) : Option Identity :=
  let secret := Bytes.bigEndianValue bytes
  if h : bytes.length = 32 ∧ 0 < secret ∧ secret < Secp256k1.groupOrder then
    some ⟨secret, h.2.1, h.2.2⟩
  else none

/-- The 32 bytes of the secret. -/
def secretBytes (identity : Identity) : Bytes := Bytes.bigEndian 32 identity.secret

/-- The public key as recorded in blocks. -/
def minerKey (identity : Identity) : MinerKey :=
  match (Secp256k1.scale identity.secret Secp256k1.generator).toAffine with
  | some point => ⟨point.compressed⟩
  | none => .zero

/-- This identity's signature over a payload. -/
def sign (identity : Identity) (payload : Bytes) : Signature :=
  ⟨Ecdsa.sign identity.secret (Sha256.digest payload)⟩

end Identity

end AttestedLedger
