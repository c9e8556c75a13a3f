/-
Candidates: the block a node searches a nonce for.

A candidate is built on the current tip from everything that waits in the pool, and the
pool marks those transactions as being mined.  `resync` brings a candidate in line with a
tip or a pool that has changed, which means building it anew.  Both also change the state
when they fail, so they return a state in every case.
-/
import AttestedLedger.Ledger.State

namespace AttestedLedger

/-- Why an attempt to mine a block ended without one. -/
inductive MiningError where
  /-- Nothing waits to be mined. -/
  | poolDry
  | quorumFailed (set : VerifierSet) (obtained required : Nat)
  | integrity (error : IntegrityError)
  /-- The search stopped without an outcome. -/
  | interrupted
  deriving DecidableEq, Repr

namespace MiningError

/-- The text shown for a mining error. -/
def message : MiningError → String
  | poolDry => "transaction pool is dry"
  | quorumFailed set obtained required =>
    s!"{set.title} time verification quorum not reached: {obtained} of {required}"
  | integrity error => s!"chain integrity violated: {error.message}"
  | interrupted => "proof-of-work worker stopped unexpectedly"

/-- Whether block production must stop. -/
def isFatal : MiningError → Bool
  | integrity _ => true
  | _ => false

end MiningError

namespace NodeState

/-- The block made of everything that waits, on the current tip.  Its timestamp is never before
the tip's. -/
def freshCandidate (s : NodeState) (miner : MinerKey) (now : UInt64) : Block :=
  .candidate miner s.pool.pending s.nextDifficulty (max now s.chain.tip.timestamp) s.chain.tipDigest

/-- Build a candidate and mark its transactions. -/
def buildCandidate (s : NodeState) (miner : MinerKey) (now : UInt64) :
    NodeState × Except MiningError Block :=
  match s.chain.checkTipLink with
  | .error e => (s, .error (.integrity e))
  | .ok () =>
    let s := { s with pool := s.pool.prune }
    if s.pool.pending.isEmpty then (s, .error .poolDry)
    else
      ({ s with pool := s.pool.markMining s.pool.pending }, .ok (s.freshCandidate miner now))

/-- Give the transactions of a candidate back to the pool. -/
def release (s : NodeState) (block : Block) : NodeState :=
  { s with pool := s.pool.release block.transactions }

/-- Whether a candidate is built on the tip from exactly what waits. -/
def isCurrent (s : NodeState) (block : Block) : Bool :=
  s.chain.tipDigest = block.previous ∧ s.pool.pending = block.transactions

/-- Bring a candidate in line with tip and pool: the candidate to go on with, and whether it was
built anew. -/
def resync (s : NodeState) (block : Block) (now : UInt64) :
    NodeState × Except MiningError (Bool × Block) :=
  match s.chain.checkTipLink with
  | .error e => (s, .error (.integrity e))
  | .ok () =>
    let s := { s with pool := s.pool.prune }
    if s.isCurrent block then (s, .ok (false, block))
    else
      let (s, built) := (s.release block).buildCandidate block.miner now
      (s, built.map fun block => (true, block))

end NodeState

end AttestedLedger
