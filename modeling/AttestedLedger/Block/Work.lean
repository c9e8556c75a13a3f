/-
Proof of work.

A digest meets a difficulty when its first 64 bits, as a number, are at most the largest
64-bit number divided by the difficulty; difficulty zero counts as one.  A round of the
search tries consecutive nonces, wrapping past the largest, and asks after every so many
failures whether to stop.  What the answers will be is an argument of the round, the
k-th question (from 1) being answered by `stop k`, so the round is a function of its
inputs and its result says how many questions were asked.
-/
import AttestedLedger.Block

namespace AttestedLedger

/-- A difficulty and the largest value it admits. -/
structure Target where
  difficulty : UInt64
  threshold : UInt64
  deriving DecidableEq, Repr

namespace Target

/-- The target of a difficulty. -/
def ofDifficulty (difficulty : UInt64) : Target :=
  ⟨difficulty, UInt64.ofNat ((UInt64.size - 1) / max difficulty.toNat 1)⟩

/-- Whether a digest meets the target. -/
def admits (target : Target) (digest : Digest) : Bool := digest.top64 ≤ target.threshold

end Target

namespace Block

/-- Whether a block's work meets its own difficulty. -/
def hasWork (block : Block) : Bool := (Target.ofDifficulty block.difficulty).admits block.workDigest

/-- The block with the next nonce. -/
def nextNonce (block : Block) : Block := { block with nonce := block.nonce + 1 }

end Block

/-- How a round of the search ends. -/
inductive RoundOutcome where
  | found (digest : Digest)
  | exhausted
  | interrupted
  deriving DecidableEq

/-- A search in progress: the block with the nonce to try next, and counts of the digests
computed and of the questions asked in this round. -/
structure Search where
  block : Block
  attempts : Nat
  polls : Nat

namespace Search

/-- Try `left` more nonces of a round in which `tried` have failed. -/
def roundFrom (interval : Nat) (stop : Nat → Bool) (tried : Nat) : Nat → Search → RoundOutcome × Search
  | 0, search => (.exhausted, search)
  | left + 1, search =>
    let digest := search.block.workDigest
    let counted := { search with attempts := search.attempts + 1 }
    if (Target.ofDifficulty search.block.difficulty).admits digest then (.found digest, counted)
    else
      let moved := { counted with block := search.block.nextNonce }
      if (tried + 1) % interval = 0 then
        let asked := { moved with polls := moved.polls + 1 }
        if stop asked.polls then (.interrupted, asked)
        else roundFrom interval stop (tried + 1) left asked
      else roundFrom interval stop (tried + 1) left moved

/-- One round of at most `nonces` nonces, with a question after every `interval` failures. -/
def round (nonces interval : Nat) (stop : Nat → Bool) (search : Search) : RoundOutcome × Search :=
  roundFrom (max interval 1) stop 0 nonces { search with polls := 0 }

end Search

end AttestedLedger
