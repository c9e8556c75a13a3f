/-
Collecting attestations from peers.

A round asks the peers of a list, several at a time, until as many distinct keys have
attested as the quorum asks for or nobody is left to ask.  Requests are answered in any
order; which request ends next, and how, is the argument of `complete`.  Requests under
way and attestations obtained never exceed the quorum together, so a round that reaches
it has nothing under way any more.
-/
import AttestedLedger.Attestation.Basic
import AttestedLedger.Peer.Call

namespace AttestedLedger

/-- The outcome of a round. -/
structure AttestationRound where
  required : Nat
  attestations : List Attestation

namespace AttestationRound

/-- How many attestations there are. -/
def obtained (round : AttestationRound) : Nat := round.attestations.length

/-- Whether there are as many as required. -/
def hasQuorum (round : AttestationRound) : Bool := round.required ≤ round.obtained

/-- The verifiers' keys. -/
def keys (round : AttestationRound) : List MinerKey := round.attestations.map (·.key)

/-- Their signatures, in the same order. -/
def signatures (round : AttestationRound) : List Signature := round.attestations.map (·.signature)

end AttestationRound

/-! ### One request -/

/-- What a peer answers to the two calls of a request.  The second is made only if the first
gave an eligible key. -/
structure PeerAnswers where
  identity : Except PeerError MinerKey
  verdict : Except PeerError TimeVerdict

/-- The attestation that a peer's answers amount to: the key it identified with is eligible, the
attestation claims that same key, and its signature verifies over the payload. -/
def PeerAnswers.judge (answers : PeerAnswers) (eligible : MinerKey → Bool) (payload : Bytes) :
    Except PeerError Attestation :=
  match answers.identity with
  | .error e => .error e
  | .ok key =>
    if eligible key then
      match answers.verdict with
      | .error e => .error e
      | .ok .declined => .error .declined
      | .ok (.attested attestation) =>
        if attestation.key = key ∧ key.verifies payload attestation.signature then .ok attestation
        else .error .badSignature
    else .error .ineligible

/-! ### One round -/

/-- A round in progress. -/
structure Collection where
  round : AttestationRound
  /-- The most requests under way at once. -/
  fanout : Nat
  /-- The entries of the peer list not yet asked. -/
  waiting : List Address
  /-- The entries asked and not yet done with, in the order they were asked. -/
  inFlight : List Address

namespace Collection

/-- How many requests may be under way. -/
def width (c : Collection) : Nat := min (c.round.required - c.round.obtained) c.fanout

/-- Ask further peers while there is room. -/
def refill (c : Collection) : Collection :=
  let room := c.width - c.inFlight.length
  { c with inFlight := c.inFlight ++ c.waiting.take room, waiting := c.waiting.drop room }

/-- Begin a round over a list of peers. -/
def start (required fanout : Nat) (peers : List Address) : Collection :=
  refill ⟨⟨required, []⟩, fanout, peers, []⟩

/-- Whether the round is over. -/
def finished (c : Collection) : Bool := c.inFlight.isEmpty

/-- Keep an attestation, unless its key has attested already. -/
def record (c : Collection) (attestation : Attestation) : Collection :=
  if c.round.keys.contains attestation.key then c
  else
    { c with round := { c.round with attestations := c.round.attestations ++ [attestation] } }

/-- The request in place `slot` ends.  A quorum ends the round and drops what is under way. -/
def complete (c : Collection) (slot : Nat) (outcome : Except PeerError Attestation) : Collection :=
  let c := { c with inFlight := c.inFlight.eraseIdx slot }
  match outcome with
  | .error _ => c.refill
  | .ok attestation =>
    let c := c.record attestation
    if c.round.hasQuorum then { c with inFlight := [] } else c.refill

end Collection

end AttestedLedger
