/-
A node: its identity, its peers, its state, its archive and its miner.

At most one attempt to mine is under way.  An attempt that has ended with a block leaves
that block to be accepted; until then the block's transactions are neither in the pool nor
in the chain.
-/
import AttestedLedger.Archive.Snapshot
import AttestedLedger.Attestation.Verifier
import AttestedLedger.Mining.Attempt

namespace AttestedLedger

namespace NodeState

/-- Accept a block this node mined.  If it is rejected, its transactions go back to the pool
unless the chain holds them, and the number put back is reported with the reason. -/
def acceptMined (s : NodeState) (now : UInt64) (block : Block) :
    NodeState × Except (Rejection × Nat) Unit :=
  match s.acceptBlock now block with
  | .ok s => (s, .ok ())
  | .error e => (s.reinstate block, .error (e, s.reinstatedCount block))

end NodeState

/-- A node. -/
structure Node where
  identity : Identity
  peers : List Address
  params : Params
  /-- What the node's miner knows of it. -/
  setup : MinerSetup
  state : NodeState
  /-- What is kept between runs, if anything is. -/
  archive : Option Archive
  /-- The attempt under way, or the last one until its block was offered to the chain. -/
  attempt : Option Attempt

namespace Node

/-- A node that is not mining. -/
def ofState (identity : Identity) (peers : List Address) (params : Params) (state : NodeState)
    (archive : Option Archive) : Node :=
  ⟨identity, peers, params, .ofParams identity.minerKey peers params, state, archive, none⟩

/-- Save the state if the node has an archive.  A save that fails leaves the archive as it was. -/
def save (node : Node) : Node :=
  { node with
    archive := node.archive.map fun archive =>
      match archive.save node.state with
      | .ok saved => saved
      | .error _ => archive }

end Node

end AttestedLedger
