/-
The verifier's side: answering a request to attest a timestamp.
-/
import AttestedLedger.Attestation.Basic
import AttestedLedger.Key.Identity
import AttestedLedger.Ledger.State

namespace AttestedLedger

/-- A node's answer to a request, given its identity, its state and its clock. -/
def NodeState.attest (s : NodeState) (identity : Identity) (now : UInt64) (block : Block) :
    TimeVerdict :=
  if s.reviewsTimestamp block now then
    .attested ⟨identity.sign block.payload, identity.minerKey⟩
  else .declined

end AttestedLedger
