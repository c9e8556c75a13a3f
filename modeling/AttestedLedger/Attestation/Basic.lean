/-
Attestations: a peer's word that a block's timestamp is plausible.
-/
import AttestedLedger.Block

namespace AttestedLedger

/-- A verifier's signature over a block's payload, with the key it claims to sign with. -/
structure Attestation where
  signature : Signature
  key : MinerKey
  deriving DecidableEq

/-- A verifier's answer. -/
inductive TimeVerdict where
  | attested (attestation : Attestation)
  /-- The timestamp is not plausible to the verifier. -/
  | declined
  deriving DecidableEq

end AttestedLedger
