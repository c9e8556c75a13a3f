/-
What a candidate may hold and still be read back.

A candidate takes everything that waits, however much that is.  Two limits stand elsewhere:
the decoder of blocks takes lists of at most `maxListLength` entries, and a frame carries at
most `Message.maxPayload` bytes.  Nothing on the way into the pool counts either.

`candidate_portable_iff` says that these two limits are all that can go wrong.  A candidate of
transactions that are themselves read back is read back by an archive exactly when it holds
few enough of them, and by a peer exactly when it is also short enough.  The second follows
from a number of transactions too, since none is longer than `Transaction.maxEncoded`.
-/
import AttestedLedger.Proofs.Codec.Framing
import AttestedLedger.Proofs.Mining.Step

namespace AttestedLedger

/-! ### Lengths of encodings -/

/-- A key takes its bytes and up to three for their number. -/
theorem Prefixed.length_encode_key_le {bytes : Bytes} (h : bytes.length ≤ maxKeyBytes) :
    (encode bytes).length ≤ 3 + maxKeyBytes :=
  Nat.le_trans (length_encode_le (Nat.le_trans h (by decide))) (Nat.add_le_add_left h 3)

/-- The longest encoding of a transaction within the limits: two keys behind their lengths and two
words. -/
def Transaction.maxEncoded : Nat := 2 * (3 + maxKeyBytes) + 2 * 8

theorem Transaction.length_encode_le {tx : Transaction} (h : tx.WithinLimits) :
    tx.encode.length ≤ maxEncoded := by
  have hsender := Prefixed.length_encode_key_le h.sender
  have hrecipient := Prefixed.length_encode_key_le h.recipient
  simp only [encode, List.length_append, Bytes.length_littleEndian, maxEncoded]
  omega

theorem Transaction.length_flatMap_encode_le :
    ∀ transactions : List Transaction, (∀ tx ∈ transactions, tx.WithinLimits) →
      (transactions.flatMap encode).length ≤ transactions.length * maxEncoded := by
  intro transactions
  induction transactions with
  | nil => intro _; simp
  | cons tx rest ih =>
      intro h
      have hfirst := length_encode_le (h tx List.mem_cons_self)
      have hrest := ih fun t ht => h t (List.mem_cons_of_mem tx ht)
      rw [List.flatMap_cons, List.length_append, List.length_cons, Nat.succ_mul]
      omega

namespace Block

variable {miner : MinerKey} {transactions : List Transaction} {difficulty timestamp : UInt64}
  {previous : Digest}

/-- Beside its transactions a candidate takes the miner's key, their number, four words, a digest
and four empty lists. -/
theorem length_encode_candidate_le (hminer : miner.bytes.length ≤ maxKeyBytes)
    (htransactions : ∀ tx ∈ transactions, tx.WithinLimits) (hfew : transactions.length ≤ 0xffff) :
    (candidate miner transactions difficulty timestamp previous).encode.length ≤
      (3 + maxKeyBytes) + 3 + transactions.length * Transaction.maxEncoded + (4 * 8 + 32 + 4) := by
  have hkey := Prefixed.length_encode_key_le hminer
  have hcount := Varint.length_encode_le hfew
  have hall := Transaction.length_flatMap_encode_le transactions htransactions
  have hempty : (Varint.encode 0).length = 1 := rfl
  simp only [encode, encodeIn, candidate, encodeFinalSets, encodeKeys, encodeSignatures,
    Prefixed.encodeMany, List.length_append, Bytes.length_littleEndian, previous.length_eq,
    List.length_nil, List.flatMap_nil, hempty]
  omega

/-- Of the limits of the format only the number of transactions is left to a candidate. -/
theorem withinLimits_candidate_iff (hminer : miner.bytes.length ≤ maxKeyBytes)
    (htransactions : ∀ tx ∈ transactions, tx.WithinLimits) :
    (candidate miner transactions difficulty timestamp previous).WithinLimits ↔
      transactions.length ≤ maxListLength := by
  refine ⟨fun h => h.transactions, fun hfew => ?_⟩
  have hnone : ∀ {α : Type} (bytes : α → Bytes), ListWithinLimits bytes [] :=
    fun _ => ⟨Nat.zero_le _, nofun⟩
  exact ⟨hminer, hfew, htransactions, Nat.zero_le _, hnone _, hnone _, hnone _, hnone _⟩

/-- An archive and a peer both read the block back. -/
structure Portable (block : Block) : Prop where
  reloads : decode block.encode = .ok block
  travels : Message.decode (Message.block block).encode = .ok (.block block)

theorem reloads_iff (block : Block) : decode block.encode = .ok block ↔ block.WithinLimits :=
  exactCodec.readsBack block

theorem travels_iff (block : Block) :
    Message.decode (Message.block block).encode = .ok (.block block) ↔
      block.WithinLimits ∧ block.encode.length ≤ Message.maxPayload := by
  rw [Message.decode_eq_ok_iff, Message.isFrame_encode_iff]
  exact ⟨fun h => ⟨h.fields, h.payload⟩, fun h => ⟨h.1, h.2⟩⟩

end Block

/-! ### Candidates -/

namespace NodeState

/-- As many transactions fit a frame whatever they are. -/
def alwaysFits : Nat := 62835

section Built

variable {s built : NodeState} {miner : MinerKey} {now : UInt64} {block : Block}

/-- What waits after pruning is within the limits if all that waited is read back. -/
theorem withinLimits_of_mem_prune
    (hpending : ∀ tx ∈ s.pool.pending, Transaction.decode tx.encode = .ok tx) :
    ∀ tx ∈ s.pool.prune.pending, tx.WithinLimits := fun tx htx =>
  (Transaction.exactCodec.readsBack tx).mp (hpending tx (Pool.mem_pending_of_mem_prune htx))

theorem withinLimits_built_iff (hbuild : s.buildCandidate miner now = (built, .ok block))
    (hpending : ∀ tx ∈ s.pool.pending, Transaction.decode tx.encode = .ok tx)
    (hminer : miner.bytes.length ≤ maxKeyBytes) :
    block.WithinLimits ↔ s.pool.prune.pending.length ≤ maxListLength := by
  obtain rfl := eq_freshCandidate_of_buildCandidate hbuild
  exact Block.withinLimits_candidate_iff hminer (withinLimits_of_mem_prune hpending)

/-- As many transactions as `alwaysFits` fill no frame. -/
theorem length_encode_built_le (hbuild : s.buildCandidate miner now = (built, .ok block))
    (hpending : ∀ tx ∈ s.pool.pending, Transaction.decode tx.encode = .ok tx)
    (hminer : miner.bytes.length ≤ maxKeyBytes)
    (hfits : s.pool.prune.pending.length ≤ alwaysFits) :
    block.encode.length ≤ Message.maxPayload := by
  obtain rfl := eq_freshCandidate_of_buildCandidate hbuild
  refine Nat.le_trans (Block.length_encode_candidate_le hminer
    (withinLimits_of_mem_prune hpending) (Nat.le_trans hfits (by decide))) ?_
  simp only [alwaysFits] at hfits
  simp only [Transaction.maxEncoded, maxKeyBytes, Message.maxPayload]
  omega

end Built

/-! ### A crowd -/

/-- Transfers from nobody to nobody, told apart by their amounts. -/
def crowd (n : Nat) : List Transaction :=
  (List.range n).map fun i => ⟨.zero, .zero, UInt64.ofNat i, 0⟩

/-- A node with nothing but genesis, where a crowd waits and a search has just given it back. -/
def crowded (p : Params) (n : Nat) : NodeState :=
  .ofParts .start (((⟨crowd n, ∅⟩ : Pool).markMining (crowd n)).release (crowd n)) p

theorem length_crowd (n : Nat) : (crowd n).length = n := by
  rw [crowd, List.length_map, List.length_range]

theorem withinLimits_crowd {n : Nat} {tx : Transaction} (h : tx ∈ crowd n) : tx.WithinLimits := by
  obtain ⟨i, -, rfl⟩ := List.mem_map.mp h
  exact Transaction.withinLimits_zero _ _

theorem decode_crowded (p : Params) (n : Nat) :
    ∀ tx ∈ (crowded p n).pool.pending, Transaction.decode tx.encode = .ok tx := fun tx htx =>
  (Transaction.exactCodec.readsBack tx).mpr (withinLimits_crowd htx)

/-- None of it is in the chain, so all of it is left after pruning. -/
theorem pending_prune_crowded (p : Params) (n : Nat) :
    (crowded p n).pool.prune.pending = crowd n := by
  refine Pool.pending_prune_of_unmined fun digest => ?_
  have hnew : (⟨crowd n, ∅⟩ : Pool).status? digest = none := Std.HashMap.getElem?_empty
  rw [crowded, ofParts, Pool.status?_release, Pool.status?_markMining, hnew]
  split <;> split <;> simp_all [Pool.markedMining]

/-- A candidate takes all of a crowd. -/
theorem buildCandidate_crowded (p : Params) {n : Nat} (h : 0 < n) (miner : MinerKey)
    (now : UInt64) :
    ∃ built block, (crowded p n).buildCandidate miner now = (built, .ok block) := by
  have hsome : (crowd n).isEmpty = false := by
    rwa [List.isEmpty_eq_false_iff, ← List.length_pos_iff, length_crowd]
  have hlink : (crowded p n).chain.checkTipLink = .ok () := Chain.checkTipLink_start
  rw [buildCandidate, hlink]
  dsimp only
  rw [pending_prune_crowded, hsome]
  exact ⟨_, _, rfl⟩

/-! ### What is read back -/

/-- **A candidate of transactions that are read back is read back if and only if it is not too
large.**  An archive reads it back when it holds few enough transactions, a peer when it is also
short enough for a frame, and up to `alwaysFits` transactions both do. -/
theorem candidate_portable_iff {s built : NodeState} {miner : MinerKey} {now : UInt64}
    {block : Block} (hbuild : s.buildCandidate miner now = (built, .ok block))
    (hpending : ∀ tx ∈ s.pool.pending, Transaction.decode tx.encode = .ok tx)
    (hminer : miner.bytes.length ≤ maxKeyBytes) :
    block.transactions = s.pool.prune.pending ∧
      (Block.decode block.encode = .ok block ↔ s.pool.prune.pending.length ≤ maxListLength) ∧
      (Message.decode (Message.block block).encode = .ok (.block block) ↔
        s.pool.prune.pending.length ≤ maxListLength ∧
          block.encode.length ≤ Message.maxPayload) ∧
      (s.pool.prune.pending.length ≤ alwaysFits → block.Portable) := by
  have hwithin := withinLimits_built_iff hbuild hpending hminer
  refine ⟨?_, (Block.reloads_iff _).trans hwithin,
    (Block.travels_iff _).trans (and_congr_left' hwithin), fun hfits => ?_⟩
  · rw [eq_freshCandidate_of_buildCandidate hbuild]
    rfl
  · have hlimits := hwithin.mpr (Nat.le_trans hfits (by decide))
    have hshort := length_encode_built_le hbuild hpending hminer hfits
    exact ⟨(Block.reloads_iff _).mpr hlimits, (Block.travels_iff _).mpr ⟨hlimits, hshort⟩⟩

/-- As large a crowd as always fits. -/
theorem candidate_portable_iff_crowd :
    ∃ built block, (crowded {} alwaysFits).buildCandidate .zero 0 = (built, .ok block) ∧
      block.transactions = crowd alwaysFits ∧ block.transactions.length = 62835 ∧
      block.Portable := by
  obtain ⟨built, block, hbuild⟩ :=
    buildCandidate_crowded {} (show 0 < alwaysFits by decide) .zero 0
  obtain ⟨htransactions, -, -, hportable⟩ :=
    candidate_portable_iff hbuild (decode_crowded {} alwaysFits) MinerKey.length_zero_le
  rw [pending_prune_crowded] at htransactions hportable
  refine ⟨built, block, hbuild, htransactions, ?_, hportable (Nat.le_of_eq (length_crowd _))⟩
  rw [htransactions]
  exact length_crowd alwaysFits

/-- One transaction more than a block may list, and neither an archive nor a peer reads back what
is mined. -/
theorem crowd_not_portable :
    ∃ (s built : NodeState) (miner : MinerKey) (now : UInt64) (block : Block),
      s.buildCandidate miner now = (built, .ok block) ∧
      (∀ tx ∈ s.pool.pending, Transaction.decode tx.encode = .ok tx) ∧
      miner.bytes.length ≤ maxKeyBytes ∧
      Block.decode block.encode ≠ .ok block ∧
      Message.decode (Message.block block).encode ≠ .ok (.block block) := by
  obtain ⟨built, block, hbuild⟩ :=
    buildCandidate_crowded {} (Nat.succ_pos maxListLength) .zero 0
  have hover : ¬block.WithinLimits := by
    rw [withinLimits_built_iff hbuild (decode_crowded {} _) MinerKey.length_zero_le,
      pending_prune_crowded, length_crowd]
    exact Nat.not_succ_le_self maxListLength
  exact ⟨_, built, .zero, 0, block, hbuild, decode_crowded {} _, MinerKey.length_zero_le,
    fun h => hover ((Block.reloads_iff block).mp h),
    fun h => hover ((Block.travels_iff block).mp h).1⟩

end NodeState

end AttestedLedger
