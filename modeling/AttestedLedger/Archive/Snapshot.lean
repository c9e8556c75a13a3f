/-
Snapshots: a node's state saved into the archive and restored from it.

Accepted blocks never change, so saving writes only the blocks past the number already
stored; only when more are stored than the chain has is everything written anew.  The
writes are listed in the order they are made, so that a save cut short is a prefix of the
list.  Restoring checks every link of the chain and the stored tip again, and submits the
stored transactions one by one, which drops those that are in the chain.
-/
import AttestedLedger.Archive.Store

namespace AttestedLedger.Archive

/-- The writes that store blocks from a height on. -/
def blocksWrites (height : Nat) : List Block → List Write
  | [] => []
  | block :: rest => blockWrites height block ++ blocksWrites (height + 1) rest

/-- What a save writes once it has found `stored` blocks in the archive. -/
def writesPast (stored : Nat) (s : NodeState) : List Write :=
  let blocks := s.chain.blocks
  let front := if blocks.length < stored then [.clearChain] else []
  let kept := if blocks.length < stored then 0 else stored
  front ++ (blocksWrites kept (blocks.drop kept) ++
    [countWrite blocks.length, tipWrite s.chain.tipDigest, .replacePool s.pool.pending])

/-- What a save of a state writes. -/
def saveWrites (archive : Archive) (s : NodeState) : Except ArchiveError (List Write) := do
  return writesPast (← archive.count) s

/-- Save a state. -/
def save (archive : Archive) (s : NodeState) : Except ArchiveError Archive := do
  return archive.applyAll (← archive.saveWrites s)

/-- A save that stops after its first `count` writes. -/
def saveCutShort (archive : Archive) (s : NodeState) (count : Nat) : Except ArchiveError Archive := do
  return archive.applyAll ((← archive.saveWrites s).take count)

/-- The chain of the stored blocks, checked against itself and against the stored tip. -/
def loadChain (archive : Archive) (blocks : List Block) : Except ArchiveError Chain :=
  match Chain.ofBlocks blocks with
  | .error e => .error (.integrity e)
  | .ok chain =>
    match chain.verifyIntegrity with
    | .error e => .error (.integrity e)
    | .ok () =>
      match archive.tip? with
      | .error e => .error e
      | .ok tip => if tip = some chain.tipDigest then .ok chain else .error (.integrity .tipMismatch)

/-- The saved state, or nothing if none was ever saved. -/
def load (archive : Archive) (params : Params) : Except ArchiveError (Option NodeState) := do
  match ← archive.blocks with
  | [] => return none
  | blocks =>
    let chain ← archive.loadChain blocks
    return some ((NodeState.ofParts chain .empty params).submitAll (← archive.transactions))

end AttestedLedger.Archive
