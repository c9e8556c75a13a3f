/-
Signatures on the curve.

A signature is a pair of scalars, 32 bytes each.  Signing derives its one-time number
from the secret and the message by the deterministic scheme of keyed digests, and picks
the smaller of the two valid second scalars; verification accepts only that smaller one,
so a signature cannot be varied by a third party.  Whatever is not two scalars of the
right range, or does not belong to a point of the curve, simply fails to verify.
-/
import AttestedLedger.Curve.Secp256k1
import AttestedLedger.Digest.Hmac

namespace AttestedLedger.Ecdsa

open Secp256k1

/-- The scalar that a digest stands for. -/
def messageScalar (message : Digest) : Nat := Bytes.bigEndianValue message.bytes % groupOrder

/-! ### The one-time number -/

/-- The generator of candidate numbers: a key and a running value. -/
structure NonceSource where
  key : Bytes
  value : Bytes

namespace NonceSource

/-- Mix a separator and data into the key, then renew the value. -/
def stir (source : NonceSource) (separator : UInt8) (data : Bytes) : NonceSource :=
  let key := (Hmac.digest source.key (source.value ++ separator :: data)).bytes
  ⟨key, (Hmac.digest key source.value).bytes⟩

/-- Seeded by the secret and the message. -/
def seeded (secret : Nat) (message : Digest) : NonceSource :=
  let data := Bytes.bigEndian 32 secret ++ message.bytes
  ((NonceSource.mk (List.replicate 32 0) (List.replicate 32 1)).stir 0 data).stir 1 data

/-- The next candidate. -/
def draw (source : NonceSource) : Bytes := (Hmac.digest source.key source.value).bytes

/-- The source after a candidate was drawn and refused. -/
def refuse (source : NonceSource) : NonceSource :=
  (NonceSource.mk source.key source.draw).stir 0 []

end NonceSource

/-! ### Signing and verifying -/

/-- The signature made with a one-time number, unless it is degenerate. -/
def signWith (secret nonce : Nat) (message : Digest) : Option (Nat × Nat) :=
  if nonce = 0 ∨ groupOrder ≤ nonce then none
  else
    match (scale nonce generator).toAffine with
    | none => none
    | some point =>
      let r := point.x % groupOrder
      let s := inverse groupOrder nonce * (messageScalar message + r * secret) % groupOrder
      if r = 0 ∨ s = 0 then none
      else some (r, if groupOrder / 2 < s then groupOrder - s else s)

/-- Draw one-time numbers until one gives a signature. -/
def signFrom (secret : Nat) (message : Digest) : Nat → NonceSource → Nat × Nat
  | 0, _ => (0, 0)
  | tries + 1, source =>
    match signWith secret (Bytes.bigEndianValue source.draw) message with
    | some signature => signature
    | none => signFrom secret message tries source.refuse

/-- Two scalars of 32 bytes each. -/
def encodeScalars (scalars : Nat × Nat) : Bytes :=
  Bytes.bigEndian 32 scalars.1 ++ Bytes.bigEndian 32 scalars.2

/-- The 64 bytes of the signature of a digest.  A draw is refused about once in 2¹²⁸ times, so
the bound on draws is never met. -/
def sign (secret : Nat) (message : Digest) : Bytes :=
  encodeScalars (signFrom secret message 64 (.seeded secret message))

/-- Whether 64 bytes are a signature of a digest under a public point. -/
def verify (key : Affine) (message : Digest) (signature : Bytes) : Bool :=
  if signature.length = 64 then
    let r := Bytes.bigEndianValue (signature.take 32)
    let s := Bytes.bigEndianValue (signature.drop 32)
    if r = 0 ∨ groupOrder ≤ r ∨ s = 0 ∨ groupOrder / 2 < s then false
    else
      let inv := inverse groupOrder s
      let u := messageScalar message * inv % groupOrder
      let v := r * inv % groupOrder
      match ((scale u generator).plus (scale v key)).toAffine with
      | some point => point.x % groupOrder = r
      | none => false
  else false

end AttestedLedger.Ecdsa
