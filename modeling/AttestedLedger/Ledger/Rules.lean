/-
The rules that make a block acceptable on a chain.

A block is judged against one chain and one reading of the clock, and the first rule it
breaks is the reason it is rejected: it must extend the tip, hold a transaction, carry the
difficulty that retargeting gives and work that meets it, be no older than the tip nor too
far in the future, hold only new and distinct transactions, and list two sets of distinct
verifiers who have mined before, each as large as the quorum, the second with signatures
over the block itself.  Signatures of the first set were made before the nonce was known,
so only their number is checked.
-/
import AttestedLedger.Block.Work
import AttestedLedger.Ledger.Chain
import AttestedLedger.Params.Retarget

namespace AttestedLedger

/-- One of the two verifier sets of a block. -/
inductive VerifierSet where
  | preMining
  | postMining
  deriving DecidableEq, Repr

/-- The name of a set in texts for people. -/
def VerifierSet.title : VerifierSet → String
  | .preMining => "pre-mining"
  | .postMining => "post-mining"

/-- Why a block is not acceptable. -/
inductive Rejection where
  | staleTip (tip found : Digest)
  | noTransactions
  | unexpectedDifficulty (expected found : UInt64)
  | invalidWork
  | invalidTimestamp
  | duplicateTransaction (tx : Digest)
  | alreadyFinalized (tx : Digest)
  | quorumShortfall (set : VerifierSet) (obtained required : Nat)
  | unpairedSignatures (set : VerifierSet)
  | duplicateVerifier (set : VerifierSet)
  | ineligibleVerifier (set : VerifierSet) (key : MinerKey)
  | invalidAttestation (key : MinerKey)
  deriving DecidableEq

/-- The text shown for a rejection. -/
def Rejection.message : Rejection → String
  | .staleTip tip found => s!"block extends {found}, current tip is {tip}"
  | .noTransactions => "block has no transactions"
  | .unexpectedDifficulty expected found =>
    s!"block difficulty {found} does not match the retarget value {expected}"
  | .invalidWork => "invalid proof of work"
  | .invalidTimestamp => "invalid timestamp"
  | .duplicateTransaction tx => s!"transaction {tx} appears twice in the block"
  | .alreadyFinalized tx => s!"transaction {tx} is already finalized"
  | .quorumShortfall set obtained required =>
    s!"{set.title} verifiers: {obtained} of {required} required"
  | .unpairedSignatures set => s!"{set.title} verifier and signature counts differ"
  | .duplicateVerifier set => s!"{set.title} verifier listed twice"
  | .ineligibleVerifier set key => s!"{set.title} verifier {key} is not an existing miner"
  | .invalidAttestation key => s!"attestation by {key} does not verify"

/-- The number of verifiers asked of a block: one for every `divisor` miners, rounded up. -/
def quorumSize (miners divisor : Nat) : Nat :=
  let d := max divisor 1
  miners / d + if miners % d = 0 then 0 else 1

/-- What judging a block needs of the parameters. -/
structure Rules where
  retarget : Retarget
  quorumDivisor : UInt64
  /-- How many nanoseconds a timestamp may run ahead of the clock. -/
  maxFutureDrift : UInt64

namespace Rules

/-- The rules that parameters ask for. -/
def ofParams (p : Params) : Rules := ⟨.ofParams p, p.quorumDivisor, p.maxFutureDrift.toNanos64⟩

/-- The difficulty that the next block of a chain must carry. -/
def nextDifficulty (rules : Rules) (chain : Chain) : UInt64 :=
  match chain.lastMined? with
  | some last => rules.retarget.next last.miningTime last.difficulty
  | none => rules.retarget.first

/-- The number of verifiers that each set of the next block must list. -/
def requiredQuorum (rules : Rules) (chain : Chain) : Nat :=
  quorumSize (chain.minerCount chain.height) rules.quorumDivisor.toNat

/-- The latest timestamp that is plausible at a reading of the clock. -/
def latestTimestamp (rules : Rules) (now : UInt64) : Nat :=
  min (now.toNat + rules.maxFutureDrift.toNat) (UInt64.size - 1)

/-- A timestamp must not precede the tip's nor lie too far in the future. -/
def checkTimestamp (rules : Rules) (chain : Chain) (timestamp now : UInt64) : Except Rejection Unit :=
  if timestamp < chain.tip.timestamp then .error .invalidTimestamp
  else if rules.latestTimestamp now < timestamp.toNat then .error .invalidTimestamp
  else .ok ()

/-- Transactions must be distinct and not in the chain; `seen` holds those before. -/
def checkTransactions (chain : Chain) (seen : List Digest) : List Transaction → Except Rejection Unit
  | [] => .ok ()
  | tx :: rest =>
    let digest := tx.digest
    if seen.contains digest then .error (.duplicateTransaction digest)
    else if chain.isFinalized digest then .error (.alreadyFinalized digest)
    else checkTransactions chain (digest :: seen) rest

/-- Verifiers must be distinct and have mined before; `seen` holds those before. -/
def checkVerifiers (chain : Chain) (set : VerifierSet) (seen : List MinerKey) :
    List MinerKey → Except Rejection Unit
  | [] => .ok ()
  | key :: rest =>
    if seen.contains key then .error (.duplicateVerifier set)
    else if chain.isNewMiner key chain.height then .error (.ineligibleVerifier set key)
    else checkVerifiers chain set (key :: seen) rest

/-- A set must pair verifiers with signatures and reach the quorum. -/
def checkSet (chain : Chain) (set : VerifierSet) (keys : List MinerKey) (signatures : List Signature)
    (required : Nat) : Except Rejection Unit :=
  if keys.length ≠ signatures.length then .error (.unpairedSignatures set)
  else if keys.length < required then .error (.quorumShortfall set keys.length required)
  else checkVerifiers chain set [] keys

/-- Each signature must be its verifier's over the payload. -/
def checkSignatures (payload : Bytes) : List (MinerKey × Signature) → Except Rejection Unit
  | [] => .ok ()
  | (key, signature) :: rest =>
    if key.verifies payload signature then checkSignatures payload rest
    else .error (.invalidAttestation key)

/-- Judge a block as the next one of a chain. -/
def check (rules : Rules) (chain : Chain) (now : UInt64) (block : Block) : Except Rejection Unit := do
  if block.previous ≠ chain.tipDigest then
    throw (.staleTip chain.tipDigest block.previous)
  if block.transactions.isEmpty then throw .noTransactions
  let expected := rules.nextDifficulty chain
  if block.difficulty ≠ expected then throw (.unexpectedDifficulty expected block.difficulty)
  if !block.hasWork then throw .invalidWork
  rules.checkTimestamp chain block.timestamp now
  checkTransactions chain [] block.transactions
  let required := rules.requiredQuorum chain
  checkSet chain .preMining block.preVerifiers block.preSignatures required
  checkSet chain .postMining block.verifiers block.signatures required
  checkSignatures block.payload (block.verifiers.zip block.signatures)

end Rules

end AttestedLedger
