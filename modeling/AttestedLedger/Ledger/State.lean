/-
The state of a node: its chain, its pool and the signal that tells of a new tip.

Only one task changes the state at a time, so every change is a function from states to
states.  A block enters the chain through `acceptBlock` alone, which also takes its
transactions out of the pool and raises the signal.  The signal counts how often it was
raised; whoever watches it remembers the count it saw last.
-/
import AttestedLedger.Ledger.Pool
import AttestedLedger.Ledger.Rules

namespace AttestedLedger

/-- The last announced tip, and how many announcements there were. -/
structure TipSignal where
  value : Digest
  raised : Nat

/-- Chain, pool, rules and tip signal of one node. -/
structure NodeState where
  chain : Chain
  pool : Pool
  rules : Rules
  signal : TipSignal

namespace NodeState

/-- A state made of parts, with a signal not yet raised. -/
def ofParts (chain : Chain) (pool : Pool) (params : Params) : NodeState :=
  ⟨chain, pool, .ofParams params, ⟨chain.tipDigest, 0⟩⟩

/-- Genesis only, and nothing waiting. -/
def start (params : Params) : NodeState := ofParts .start .empty params

/-- The difficulty of the next block. -/
def nextDifficulty (s : NodeState) : UInt64 := s.rules.nextDifficulty s.chain

/-- The quorum of the next block. -/
def requiredQuorum (s : NodeState) : Nat := s.rules.requiredQuorum s.chain

/-! ### Transactions -/

/-- Submit a transaction.  One that is in the chain is ignored. -/
def submit (s : NodeState) (tx : Transaction) : NodeState × SubmitOutcome :=
  if s.chain.isFinalized tx.digest then (s, .ignored .mined)
  else
    let (pool, outcome) := s.pool.submit tx
    ({ s with pool }, outcome)

/-- Submit transactions one after another. -/
def submitAll (s : NodeState) (transactions : List Transaction) : NodeState :=
  transactions.foldl (fun s tx => (s.submit tx).1) s

/-- Put back the transactions of a mined block that was not accepted. -/
def reinstate (s : NodeState) (block : Block) : NodeState :=
  { s with pool := s.pool.reinstate block.transactions s.chain.isFinalized }

/-- How many transactions of a block are put back. -/
def reinstatedCount (s : NodeState) (block : Block) : Nat :=
  Pool.reinstatedCount block.transactions s.chain.isFinalized

/-! ### Blocks -/

/-- Append a block that was found acceptable. -/
def append (s : NodeState) (block : Block) : NodeState :=
  let chain := s.chain.push block
  { s with
    chain
    pool := (s.pool.markMined block.transactions).prune
    signal := ⟨chain.tipDigest, s.signal.raised + 1⟩ }

/-- Accept a block at a reading of the clock, or say why not. -/
def acceptBlock (s : NodeState) (now : UInt64) (block : Block) : Except Rejection NodeState :=
  match s.rules.check s.chain now block with
  | .error e => .error e
  | .ok () => .ok (s.append block)

/-! ### Attesting -/

/-- Whether a block's timestamp is plausible to this node. -/
def reviewsTimestamp (s : NodeState) (block : Block) (now : UInt64) : Bool :=
  match s.rules.checkTimestamp s.chain block.timestamp now with
  | .ok () => true
  | .error _ => false

end NodeState

end AttestedLedger
