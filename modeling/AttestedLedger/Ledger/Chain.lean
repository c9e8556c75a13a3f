/-
The chain of accepted blocks, with its indexes.

A chain is never empty: it is a tip and the blocks before it, newest first, down to
genesis.  Beside the blocks it keeps what is asked often: the digest of the tip, the
height at which each miner first mined, and the digests of all finalized transactions.
These are maintained by `push` alone, so what they say about the blocks is an invariant
of that one function.  Heights are positions counted from genesis, and "below a height"
means among that many first blocks.
-/
import AttestedLedger.Block
import Std.Data.HashSet

namespace AttestedLedger

/-- What is wrong with a sequence of blocks that should be a chain. -/
inductive IntegrityError where
  | missingGenesis
  | brokenLink (height : Nat)
  | tipMismatch
  deriving DecidableEq, Repr

/-- The text shown for an integrity error. -/
def IntegrityError.message : IntegrityError → String
  | .missingGenesis => "chain does not start with the genesis block"
  | .brokenLink height => s!"block at height {height} does not link to its predecessor"
  | .tipMismatch => "cached tip hash does not match the stored tip"

/-- Accepted blocks and the indexes over them. -/
structure Chain where
  tip : Block
  /-- The blocks before the tip, newest first. -/
  earlier : List Block
  /-- The digest of the tip. -/
  tipDigest : Digest
  /-- Each miner with the height of its first block, in the order of those blocks. -/
  firstMined : List (MinerKey × Nat)
  /-- The digests of all transactions of the blocks. -/
  finalized : Std.HashSet Digest

namespace Chain

/-- The chain that holds only genesis. -/
def start : Chain where
  tip := .genesis
  earlier := []
  tipDigest := Block.genesis.digest
  firstMined := []
  finalized := ∅

instance : Inhabited Chain := ⟨start⟩

/-! ### Reading -/

/-- The blocks, genesis first. -/
def blocks (chain : Chain) : List Block := (chain.tip :: chain.earlier).reverse

/-- The number of blocks, genesis included. -/
def height (chain : Chain) : Nat := chain.earlier.length + 1

/-- The block at a height. -/
def get? (chain : Chain) (height : Nat) : Option Block := chain.blocks[height]?

/-- The newest block that was mined, which is any but genesis. -/
def lastMined? (chain : Chain) : Option Block :=
  if chain.earlier.isEmpty then none else some chain.tip

/-- The height of a miner's first block. -/
def firstHeight? (chain : Chain) (key : MinerKey) : Option Nat := chain.firstMined.lookup key

/-- How many miners have a block below a height. -/
def minerCount (chain : Chain) (height : Nat) : Nat := chain.firstMined.countP (·.2 < height)

/-- Whether a key has no block below a height. -/
def isNewMiner (chain : Chain) (key : MinerKey) (height : Nat) : Bool :=
  match chain.firstHeight? key with
  | some first => height ≤ first
  | none => true

/-- Every key that has mined. -/
def miners (chain : Chain) : List MinerKey := chain.firstMined.map (·.1)

/-- Whether a transaction is in some block. -/
def isFinalized (chain : Chain) (tx : Digest) : Bool := chain.finalized.contains tx

/-! ### Extending -/

/-- The first heights with one more block: a miner already known keeps its own, and the zero key
is no miner. -/
def recordMiner (key : MinerKey) (height : Nat) (index : List (MinerKey × Nat)) : List (MinerKey × Nat) :=
  if key.isZero || (index.lookup key).isSome then index else index ++ [(key, height)]

/-- Append a block without checking it. -/
def push (chain : Chain) (block : Block) : Chain where
  tip := block
  earlier := chain.tip :: chain.earlier
  tipDigest := block.digest
  firstMined := recordMiner block.miner chain.height chain.firstMined
  finalized := block.transactions.foldl (fun known tx => known.insert tx.digest) chain.finalized

/-- Append blocks one by one as long as each links to the tip. -/
def pushLinked (chain : Chain) : List Block → Except IntegrityError Chain
  | [] => .ok chain
  | block :: rest =>
    if block.previous = chain.tipDigest then pushLinked (chain.push block) rest
    else .error (.brokenLink chain.height)

/-- The chain of a sequence of blocks, if it starts with genesis and every link holds. -/
def ofBlocks : List Block → Except IntegrityError Chain
  | [] => .error .missingGenesis
  | first :: rest => if first = .genesis then start.pushLinked rest else .error .missingGenesis

/-! ### Checking -/

/-- Whether the kept digest is the tip's and the tip links to its predecessor. -/
def checkTipLink (chain : Chain) : Except IntegrityError Unit :=
  if chain.tip.digest ≠ chain.tipDigest then .error .tipMismatch
  else
    match chain.earlier with
    | [] => .ok ()
    | before :: _ =>
      if chain.tip.previous = before.digest then .ok ()
      else .error (.brokenLink chain.earlier.length)

/-- The first height, from that of `block` on, whose successor does not link to it. -/
def firstBroken (height : Nat) (block : Block) : List Block → Option Nat
  | [] => none
  | next :: rest =>
    if next.previous = block.digest then firstBroken (height + 1) next rest else some (height + 1)

/-- Walk the whole chain. -/
def verifyIntegrity (chain : Chain) : Except IntegrityError Unit :=
  match chain.blocks with
  | [] => .error .missingGenesis
  | first :: rest =>
    if first = .genesis then
      match firstBroken 0 first rest with
      | some height => .error (.brokenLink height)
      | none => chain.checkTipLink
    else .error .missingGenesis

end Chain

end AttestedLedger
