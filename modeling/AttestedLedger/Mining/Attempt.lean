/-
One attempt to mine a block.

An attempt builds a candidate, has its timestamp attested, searches for a nonce, has the
finished block attested, and takes the block's transactions out of the pool.  It shares
the node's state with other tasks, which may submit transactions and accept blocks
whenever the attempt is not itself at work on the state.  So the attempt is a machine:
`stage` says what it does next, `step` performs one action that no other task can come
between, and whatever comes from outside — peers' answers and their order, the clock —
is part of the event that drives the step.

The first round of attestations may fall short of the quorum without ending the attempt;
it is repeated between rounds of the search, and at the latest when a nonce was found
while it was short, which spends that nonce.  A tip that moved is noticed by the signal
during the search and by comparison after the second round, and has the candidate built
anew.
-/
import AttestedLedger.Attestation.Round
import AttestedLedger.Mining.Candidate

namespace AttestedLedger

/-- What an attempt knows of its node. -/
structure MinerSetup where
  miner : MinerKey
  peers : List Address
  fanout : Nat
  noncesPerRound : Nat
  checkInterval : Nat

/-- The setup that parameters ask for. -/
def MinerSetup.ofParams (miner : MinerKey) (peers : List Address) (p : Params) : MinerSetup where
  miner := miner
  peers := peers
  fanout := max p.attestationFanout.toNat 1
  noncesPerRound := max p.noncesPerRound.toNat 1
  checkInterval := max p.cancelCheckInterval.toNat 1

/-- What kind of reason ended an attempt. -/
inductive AbortReason where
  | poolDry
  | quorumFailed
  /-- A corrupt chain or a lost search. -/
  | fault
  deriving DecidableEq, Repr

/-- The kind of an error. -/
def MiningError.abortReason : MiningError → AbortReason
  | poolDry => .poolDry
  | quorumFailed .. => .quorumFailed
  | integrity _ | interrupted => .fault

/-- The progress of an attempt as shown to others. -/
inductive MiningPhase where
  | idle
  | preparing
  | searching
  | verifying
  | done
  | aborted (reason : AbortReason)
  deriving DecidableEq, Repr

/-- Why a round of attestations is held. -/
inductive RoundPurpose where
  /-- For a candidate just built. -/
  | opening
  /-- Again, since a nonce was found while the first set was short. -/
  | resealing
  /-- Again, between two rounds of the search. -/
  | topUp
  /-- For the block whose nonce was found. -/
  | closing
  deriving DecidableEq, Repr

/-- What an attempt does next. -/
inductive Stage where
  /-- Read the quorum and the miners, and ask the first peers. -/
  | calling (purpose : RoundPurpose)
  /-- Wait for peers' answers about `payload`. -/
  | gathering (purpose : RoundPurpose) (payload : Bytes) (eligible : List MinerKey)
      (collection : Collection)
  /-- Try more nonces of a round in which `tried` have failed. -/
  | searching (tried : Nat)
  /-- Compare the candidate with tip and pool. -/
  | resyncing
  /-- Finish the block, unless the tip has moved. -/
  | settling (round : AttestationRound)
  /-- Give the candidate's transactions back. -/
  | releasing (error : MiningError)
  | finished (result : Except MiningError Block)

/-- An attempt in progress. -/
structure Attempt where
  candidate : Block
  /-- The count of the tip signal that was seen last. -/
  seen : Nat
  /-- How many digests the search has computed. -/
  hashes : Nat
  /-- Whether the first set of attestations has reached its quorum. -/
  preQuorum : Bool
  phase : MiningPhase
  stage : Stage

/-- One thing that happens to an attempt, with what it takes from outside. -/
inductive AttemptEvent where
  /-- The state is free to be read. -/
  | call
  /-- The request in place `slot` is answered. -/
  | answer (slot : Nat) (answers : PeerAnswers)
  /-- The search runs to its next look at the tip; the attempt has taken `elapsed` by then. -/
  | search (elapsed : Duration)
  /-- The search is lost. -/
  | lose
  /-- The state is free to be changed, at a reading of the clock. -/
  | proceed (now : UInt64)

namespace Attempt

/-! ### The pieces of a step -/

/-- The attempt with its result. -/
def conclude (a : Attempt) : Except MiningError Block → Attempt
  | .ok block => { a with phase := .done, stage := .finished (.ok block) }
  | .error e => { a with phase := .aborted e.abortReason, stage := .finished (.error e) }

/-- The candidate with its first set of verifiers. -/
def withPreSet (block : Block) (round : AttestationRound) : Block :=
  { block with preVerifiers := round.keys, preSignatures := round.signatures }

/-- The block with its second set of verifiers. -/
def withPostSet (block : Block) (round : AttestationRound) : Block :=
  { block with verifiers := round.keys, signatures := round.signatures }

/-- What follows a finished round. -/
def closeRound (a : Attempt) (purpose : RoundPurpose) (round : AttestationRound) : Attempt :=
  match purpose with
  | .closing => { a with stage := .settling round }
  | .resealing =>
    let a := { a with candidate := withPreSet a.candidate round }
    if round.hasQuorum then { a with preQuorum := true, stage := .searching 0 }
    else
      { a with stage := .releasing (.quorumFailed .preMining round.obtained round.required) }
  | .opening | .topUp =>
    { a with
      candidate := withPreSet a.candidate round
      preQuorum := round.hasQuorum
      phase := .searching
      stage := .searching 0 }

/-- Go on with a round: wait for answers, or close it when nothing is under way. -/
def continueRound (a : Attempt) (purpose : RoundPurpose) (payload : Bytes) (eligible : List MinerKey)
    (c : Collection) : Attempt :=
  if c.finished then a.closeRound purpose c.round
  else { a with stage := .gathering purpose payload eligible c }

/-- Try the nonces up to the next look at the tip or the end of the round. -/
def searchSlice (setup : MinerSetup) (s : NodeState) (a : Attempt) (tried : Nat) (elapsed : Duration) :
    Attempt :=
  let size := min setup.checkInterval (setup.noncesPerRound - tried)
  let (outcome, search) := Search.round size size (fun _ => false) ⟨a.candidate, a.hashes, 0⟩
  let a := { a with candidate := search.block, hashes := search.attempts }
  match outcome with
  | .found _ =>
    if a.preQuorum then
      { a with
        candidate := { a.candidate with miningTime := elapsed }
        phase := .verifying
        stage := .calling .closing }
    else { a with stage := .calling .resealing }
  | _ =>
    let tried := tried + size
    let looks := tried % setup.checkInterval = 0
    if (looks ∧ s.signal.raised ≠ a.seen) ∨ setup.noncesPerRound ≤ tried then
      { a with stage := .resyncing }
    else { a with stage := .searching tried }

/-- Compare the candidate with tip and pool, having looked at the signal. -/
def afterResync (s : NodeState) (a : Attempt) (now : UInt64) : NodeState × Attempt :=
  let a := { a with seen := s.signal.raised }
  match s.resync a.candidate now with
  | (s, .error e) => (s, { a with stage := .releasing e })
  | (s, .ok (true, block)) => (s, { a with candidate := block, stage := .calling .opening })
  | (s, .ok (false, _)) =>
    (s, { a with stage := if a.preQuorum then .searching 0 else .calling .topUp })

/-- Finish the block if it still extends the tip and its second set reached the quorum. -/
def settle (s : NodeState) (a : Attempt) (round : AttestationRound) (now : UInt64) :
    NodeState × Attempt :=
  if s.chain.tipDigest ≠ a.candidate.previous then
    let a := { a with seen := s.signal.raised }
    match s.resync a.candidate now with
    | (s, .error e) => (s, { a with stage := .releasing e })
    | (s, .ok (_, block)) => (s, { a with candidate := block, stage := .calling .opening })
  else if !round.hasQuorum then
    (s, { a with stage := .releasing (.quorumFailed .postMining round.obtained round.required) })
  else
    let block := withPostSet a.candidate round
    let pool := (s.pool.markMined block.transactions).prune
    ({ s with pool }, { a with candidate := block }.conclude (.ok block))

/-! ### The machine -/

/-- Begin an attempt: watch the tip and build a candidate. -/
def start (setup : MinerSetup) (s : NodeState) (now : UInt64) : NodeState × Attempt :=
  let blank : Attempt := ⟨.genesis, s.signal.raised, 0, false, .preparing, .calling .opening⟩
  match s.buildCandidate setup.miner now with
  | (s, .error e) => (s, blank.conclude (.error e))
  | (s, .ok block) => (s, { blank with candidate := block })

/-- Perform one action.  An event that does not fit the stage changes nothing. -/
def step (setup : MinerSetup) (s : NodeState) (a : Attempt) (event : AttemptEvent) :
    NodeState × Attempt :=
  match a.stage, event with
  | .calling purpose, .call =>
    let c := Collection.start s.requiredQuorum setup.fanout setup.peers
    (s, a.continueRound purpose a.candidate.payload s.chain.miners c)
  | .gathering purpose payload eligible c, .answer slot answers =>
    if slot < c.inFlight.length then
      let outcome := answers.judge eligible.contains payload
      (s, a.continueRound purpose payload eligible (c.complete slot outcome))
    else (s, a)
  | .searching tried, .search elapsed => (s, searchSlice setup s a tried elapsed)
  | .searching _, .lose => (s, { a with stage := .releasing .interrupted })
  | .resyncing, .proceed now => afterResync s a now
  | .settling round, .proceed now => settle s a round now
  | .releasing e, .proceed _ => (s.release a.candidate, a.conclude (.error e))
  | _, _ => (s, a)

/-- The result of an attempt that is over. -/
def result? (a : Attempt) : Option (Except MiningError Block) :=
  match a.stage with
  | .finished result => some result
  | _ => none

end Attempt

end AttestedLedger
