/-
The pool of transactions waiting for a block.

Every transaction in the pool has a status, and a status may outlive its transaction
until the next pruning.  Order in the pool means nothing beyond being the order of the
next candidate, so pruning closes each gap with the last entry.
-/
import AttestedLedger.Transaction
import Std.Data.HashMap

namespace AttestedLedger

/-- Where a transaction is on its way into the chain. -/
inductive TxStatus where
  | unmined
  /-- In the candidate this node is searching for. -/
  | mining
  /-- In an accepted block. -/
  | mined
  deriving DecidableEq, Repr

/-- What became of a submission. -/
inductive SubmitOutcome where
  | added
  /-- Known already; nothing changed. -/
  | ignored (status : TxStatus)
  deriving DecidableEq, Repr

/-- Waiting transactions and the statuses of all that are tracked. -/
structure Pool where
  pending : List Transaction
  status : Std.HashMap Digest TxStatus

namespace Pool

/-- Nothing waits. -/
def empty : Pool := ⟨[], ∅⟩

instance : Inhabited Pool := ⟨empty⟩

/-- The status of a tracked transaction. -/
def status? (pool : Pool) (tx : Digest) : Option TxStatus := pool.status[tx]?

/-- Add a transaction unless it is tracked in any status. -/
def submit (pool : Pool) (tx : Transaction) : Pool × SubmitOutcome :=
  match pool.status? tx.digest with
  | some status => (pool, .ignored status)
  | none => (⟨pool.pending ++ [tx], pool.status.insert tx.digest .unmined⟩, .added)

/-! ### Pruning -/

/-- Remove the entries that satisfy `gone`, filling each gap with the last entry. -/
def sweep (gone : α → Bool) : List α → List α
  | [] => []
  | x :: rest =>
    if gone x then
      match h : rest with
      | [] => []
      | y :: more => sweep gone ((y :: more).getLast (by simp) :: (y :: more).dropLast)
    else x :: sweep gone rest
termination_by entries => entries.length
decreasing_by all_goals simp_all

/-- Whether a transaction's status says that it is in the chain. -/
def isMined (pool : Pool) (tx : Transaction) : Bool := pool.status? tx.digest == some .mined

/-- Remove what is in the chain and forget its statuses. -/
def prune (pool : Pool) : Pool where
  pending := sweep pool.isMined pool.pending
  status := pool.status.filter fun _ status => status != .mined

/-- How many entries pruning removes. -/
def prunedCount (pool : Pool) : Nat := pool.pending.length - pool.prune.pending.length

/-! ### Changes of status -/

/-- The status a transaction has once a search takes it up. -/
def markedMining : Option TxStatus → TxStatus
  | some .mined => .mined
  | _ => .mining

/-- Take transactions into the block being searched for. -/
def markMining (pool : Pool) (transactions : List Transaction) : Pool :=
  { pool with
    status := transactions.foldl (fun statuses tx =>
      statuses.insert tx.digest (markedMining statuses[tx.digest]?)) pool.status }

/-- Record transactions as being in the chain, whether or not they wait here. -/
def markMined (pool : Pool) (transactions : List Transaction) : Pool :=
  { pool with
    status := transactions.foldl (fun statuses tx => statuses.insert tx.digest .mined) pool.status }

/-- Give back the transactions of an abandoned candidate. -/
def release (pool : Pool) (transactions : List Transaction) : Pool :=
  { pool with
    status := transactions.foldl (fun statuses tx =>
      if statuses[tx.digest]? = some .mining then statuses.insert tx.digest .unmined else statuses)
      pool.status }

/-- Put back one transaction of a mined block that was not accepted. -/
def reinstateOne (pool : Pool) (tx : Transaction) : Pool where
  pending := if pool.pending.any (·.digest == tx.digest) then pool.pending else pool.pending ++ [tx]
  status := pool.status.insert tx.digest .unmined

/-- Put back the transactions of a mined block that was not accepted, but for those in the
chain. -/
def reinstate (pool : Pool) (transactions : List Transaction) (finalized : Digest → Bool) : Pool :=
  (transactions.filter fun tx => !finalized tx.digest).foldl reinstateOne pool

/-- How many transactions are put back. -/
def reinstatedCount (transactions : List Transaction) (finalized : Digest → Bool) : Nat :=
  transactions.countP fun tx => !finalized tx.digest

end Pool

end AttestedLedger
