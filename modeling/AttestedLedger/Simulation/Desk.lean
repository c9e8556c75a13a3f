/-
Operating a state by hand.

A desk holds a candidate and remembers the tip signal seen last.  Actions at the desk read
or change a node's state one at a time, in any order, also in orders in which no node
would perform them; each gives a result to look at.
-/
import AttestedLedger.Attestation.Verifier
import AttestedLedger.Mining.Candidate

namespace AttestedLedger.Simulation

/-- A candidate at hand, and the count of the tip signal seen last. -/
structure Desk where
  candidate : Option Block
  seen : Nat

/-- An empty desk. -/
def Desk.empty : Desk := ⟨none, 0⟩

/-- One action. -/
inductive Action where
  -- on the pool
  | submitToPool (tx : Transaction)
  | status (tx : Transaction)
  | prune
  | markMining (transactions : List Transaction)
  | markMined (transactions : List Transaction)
  | release (transactions : List Transaction)
  | reinstateInPool (transactions finalized : List Transaction)
  | listPool
  | countPool
  -- on the whole state
  | submit (tx : Transaction)
  | isFinalized (tx : Transaction)
  /-- Without a block, the candidate. -/
  | accept (block : Option Block)
  | validate (block : Block)
  | checkTimestamp (timestamp now : UInt64)
  | reviewTimestamp (block : Block) (now : UInt64)
  | attest (identity : Identity) (block : Block)
  /-- Without a block, the candidate. -/
  | reinstate (block : Option Block)
  | requiredQuorum
  | nextDifficulty
  | watchTip
  | tipChanged
  /-- Replace the chain and nothing else. -/
  | setChain (blocks : List Block)
  -- on the candidate
  | build (miner : MinerKey)
  | resync
  | edit (nonce : Option UInt64) (time : Option Duration) (transactions : Option (List Transaction))
  /-- Add signers to one set, all over the payload the candidate has before. -/
  | sign (set : VerifierSet) (signers : List Identity)
  | search (nonces : Nat)

/-- What an action gives. -/
inductive Result where
  | nothing
  | flag (value : Bool)
  | number (value : Nat)
  | accepted (tip : Digest)
  | valid
  | rejected (reason : Rejection)
  | submitted (outcome : SubmitOutcome)
  | status (status : Option TxStatus)
  | transactions (transactions : List Transaction)
  | poolSize (size : Nat) (isEmpty : Bool)
  | verdict (verdict : TimeVerdict)
  | tip (changed : Bool) (value : Digest)
  | broken (error : IntegrityError)
  | candidate (block : Block)
  | resynced (rebuilt : Bool) (block : Block)
  | miningFailed (error : MiningError)
  | searched (found : Option Digest) (nonce : UInt64) (hasWork : Bool)

/-- The result of a check. -/
def Result.ofCheck : Except Rejection Unit → Result
  | .ok () => .valid
  | .error e => .rejected e

/-- The candidate, or genesis if there is none. -/
def Desk.block (desk : Desk) : Block := desk.candidate.getD .genesis

/-- The candidate with other contents. -/
def edited (block : Block) (nonce : Option UInt64) (time : Option Duration)
    (transactions : Option (List Transaction)) : Block :=
  { block with
    nonce := nonce.getD block.nonce
    miningTime := time.getD block.miningTime
    transactions := transactions.getD block.transactions }

/-- The candidate with further signers in one set. -/
def signed (block : Block) (set : VerifierSet) (signers : List Identity) : Block :=
  let keys := signers.map Identity.minerKey
  let signatures := signers.map fun signer => signer.sign block.payload
  match set with
  | .preMining =>
    { block with
      preVerifiers := block.preVerifiers ++ keys
      preSignatures := block.preSignatures ++ signatures }
  | .postMining =>
    { block with
      verifiers := block.verifiers ++ keys
      signatures := block.signatures ++ signatures }

/-- The desk with another candidate. -/
def Desk.replace (desk : Desk) (block : Block) : Desk := { desk with candidate := some block }

/-- Perform an action at a reading of the clock. -/
def perform (now : UInt64) (s : NodeState) (desk : Desk) : Action → NodeState × Desk × Result
  | .submitToPool tx =>
    let (pool, outcome) := s.pool.submit tx
    ({ s with pool }, desk, .submitted outcome)
  | .status tx => (s, desk, .status (s.pool.status? tx.digest))
  | .prune => ({ s with pool := s.pool.prune }, desk, .number s.pool.prunedCount)
  | .markMining transactions => ({ s with pool := s.pool.markMining transactions }, desk, .nothing)
  | .markMined transactions => ({ s with pool := s.pool.markMined transactions }, desk, .nothing)
  | .release transactions => ({ s with pool := s.pool.release transactions }, desk, .nothing)
  | .reinstateInPool transactions finalized =>
    let isFinal (tx : Digest) : Bool := finalized.any (·.digest == tx)
    ({ s with pool := s.pool.reinstate transactions isFinal }, desk,
      .number (Pool.reinstatedCount transactions isFinal))
  | .listPool => (s, desk, .transactions s.pool.pending)
  | .countPool => (s, desk, .poolSize s.pool.pending.length s.pool.pending.isEmpty)
  | .submit tx =>
    let (s, outcome) := s.submit tx
    (s, desk, .submitted outcome)
  | .isFinalized tx => (s, desk, .flag (s.chain.isFinalized tx.digest))
  | .accept block =>
    match s.acceptBlock now (block.getD desk.block) with
    | .ok s => (s, desk, .accepted s.chain.tipDigest)
    | .error e => (s, desk, .rejected e)
  | .validate block => (s, desk, .ofCheck (s.rules.check s.chain now block))
  | .checkTimestamp timestamp now => (s, desk, .ofCheck (s.rules.checkTimestamp s.chain timestamp now))
  | .reviewTimestamp block now => (s, desk, .flag (s.reviewsTimestamp block now))
  | .attest identity block => (s, desk, .verdict (s.attest identity now block))
  | .reinstate block =>
    let block := block.getD desk.block
    (s.reinstate block, desk, .number (s.reinstatedCount block))
  | .requiredQuorum => (s, desk, .number s.requiredQuorum)
  | .nextDifficulty => (s, desk, .number s.nextDifficulty.toNat)
  | .watchTip => (s, { desk with seen := s.signal.raised }, .nothing)
  | .tipChanged =>
    (s, { desk with seen := s.signal.raised }, .tip (s.signal.raised != desk.seen) s.signal.value)
  | .setChain blocks =>
    match Chain.ofBlocks blocks with
    | .ok chain => ({ s with chain }, desk, .valid)
    | .error e => (s, desk, .broken e)
  | .build miner =>
    match s.buildCandidate miner now with
    | (s, .ok block) => (s, desk.replace block, .candidate block)
    | (s, .error e) => (s, desk, .miningFailed e)
  | .resync =>
    match s.resync desk.block now with
    | (s, .ok (rebuilt, block)) => (s, desk.replace block, .resynced rebuilt block)
    | (s, .error e) => (s, desk, .miningFailed e)
  | .edit nonce time transactions =>
    let block := edited desk.block nonce time transactions
    (s, desk.replace block, .candidate block)
  | .sign set signers =>
    let block := signed desk.block set signers
    (s, desk.replace block, .candidate block)
  | .search nonces =>
    let (outcome, search) := Search.round nonces 1000 (fun _ => false) ⟨desk.block, 0, 0⟩
    let found := match outcome with
      | .found digest => some digest
      | _ => none
    (s, desk.replace search.block, .searched found search.block.nonce search.block.hasWork)

end AttestedLedger.Simulation
