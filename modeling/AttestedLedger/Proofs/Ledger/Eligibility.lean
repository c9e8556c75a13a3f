/-
Who may verify the next block, as the collector and as the rules ask it.

Whoever collects attestations keeps to the keys that `miners` lists; whoever judges a block
asks of each verifier whether it is new at the height of the chain.  Neither looks at the
blocks: both read the index of first heights, which leaves out the zero key and every block
of a miner but its first.  `Chain.Agrees` says what the indexes of a chain amount to in terms
of its blocks alone, and that the two questions have one answer.  It holds of every chain,
however it came to be (`Chain.Grown`), so there are always as many eligible keys as the quorum
asks for.
-/
import AttestedLedger.Proofs.Ledger.History
import AttestedLedger.Proofs.Ledger.Rebuild

namespace AttestedLedger

/-! ### The quorum -/

/-- A quorum is never larger than the number of miners it is taken of. -/
theorem quorumSize_le (miners divisor : Nat) : quorumSize miners divisor ≤ miners := by
  have hpositive : 0 < max divisor 1 := Nat.lt_of_lt_of_le Nat.one_pos (Nat.le_max_right _ _)
  have hsplit := Nat.div_add_mod miners (max divisor 1)
  have hmul := Nat.le_mul_of_pos_left (miners / max divisor 1) hpositive
  unfold quorumSize
  dsimp only
  split <;> omega

theorem Rules.requiredQuorum_le (rules : Rules) (chain : Chain) :
    rules.requiredQuorum chain ≤ chain.miners.length := by
  refine Nat.le_trans (quorumSize_le _ _) ?_
  rw [Chain.minerCount, Chain.miners, List.length_map]
  exact List.countP_le_length

namespace Chain

/-! ### What the indexes amount to -/

/-- What a chain of these blocks says about them. -/
structure Agrees (chain : Chain) (blocks : List Block) : Prop where
  kept : chain.blocks = blocks
  tip : blocks.getLast?.map (·.digest) = some chain.tipDigest
  /-- As many miners are counted below a height as distinct keys mined there. -/
  minerCount : ∀ height, chain.minerCount height = (minersOf (blocks.take height)).card
  /-- A key is no longer new when it mined a block below the height. -/
  isNewMiner : ∀ key height, chain.isNewMiner key height = false ↔
    key.isZero = false ∧
      ∃ below < height, ∃ block, blocks[below]? = some block ∧ block.miner = key
  miners : ∀ key, key ∈ chain.miners ↔ key.isZero = false ∧ ∃ block ∈ blocks, block.miner = key
  /-- No miner is listed twice. -/
  once : chain.miners.Nodup
  finalized : ∀ tx, chain.isFinalized tx = true ↔ Recorded blocks tx
  /-- The collector's test of a key is that of the rules. -/
  eligible : ∀ key, chain.miners.contains key = !chain.isNewMiner key chain.height
  /-- The quorum is never out of reach for lack of eligible keys. -/
  attainable : ∀ rules : Rules, rules.requiredQuorum chain ≤ chain.miners.length

/-- Who mined one of the first blocks. -/
theorem mem_minersOf_take {blocks : List Block} {key : MinerKey} {height : Nat} :
    key ∈ minersOf (blocks.take height) ↔
      key.isZero = false ∧
        ∃ below < height, ∃ block, blocks[below]? = some block ∧ block.miner = key := by
  rw [mem_minersOf, List.mem_map]
  refine and_congr_right fun _ => ?_
  constructor
  · rintro ⟨block, hblock, hminer⟩
    obtain ⟨below, hbelow⟩ := List.mem_iff_getElem?.mp hblock
    rw [List.getElem?_take] at hbelow
    split at hbelow
    · rename_i hlt
      exact ⟨below, hlt, block, hbelow, hminer⟩
    · exact absurd hbelow (by simp)
  · rintro ⟨below, hlt, block, hbelow, hminer⟩
    refine ⟨block, List.mem_iff_getElem?.mpr ⟨below, ?_⟩, hminer⟩
    rw [List.getElem?_take, if_pos hlt]
    exact hbelow

namespace Indexed

variable {chain : Chain}

/-- A key is listed exactly when it is not new at the height of the chain. -/
theorem contains_miners (h : chain.Indexed) (key : MinerKey) :
    chain.miners.contains key = !chain.isNewMiner key chain.height := by
  rw [Bool.eq_iff_iff, List.contains_iff_mem, Bool.not_eq_true', h.mem_miners,
    h.isNewMiner_eq_false_iff, take_height]

/-- **Indexes that agree with the blocks answer every question about them.** -/
theorem agrees_blocks (h : chain.Indexed) : chain.Agrees chain.blocks where
  kept := rfl
  tip := by
    rw [blocks, List.getLast?_reverse, List.head?_cons, Option.map_some, h.tip]
  minerCount := h.minerCount_eq
  isNewMiner := fun _ _ => h.isNewMiner_eq_false_iff.trans mem_minersOf_take
  miners := by
    intro key
    rw [h.mem_miners, mem_minersOf, List.mem_map]
  once := h.once
  finalized := h.finalized
  eligible := h.contains_miners
  attainable := fun rules => rules.requiredQuorum_le chain

end Indexed

/-! ### How a chain comes to be -/

/-- The chains of some blocks: those that grew from genesis block by block, checked or not, and
those that were rebuilt from what was kept. -/
inductive Grown : List Block → Chain → Prop where
  | start : Grown [.genesis] start
  | push {blocks : List Block} {chain : Chain} (h : Grown blocks chain) (block : Block) :
      Grown (blocks ++ [block]) (chain.push block)
  | ofBlocks {blocks : List Block} {chain : Chain} (hok : Chain.ofBlocks blocks = .ok chain) :
      Grown blocks chain
  | acceptBlock {blocks : List Block} {s t : NodeState} {now : UInt64} {block : Block}
      (h : Grown blocks s.chain) (hok : s.acceptBlock now block = .ok t) :
      Grown (blocks ++ [block]) t.chain

namespace Grown

variable {blocks : List Block} {chain : Chain}

/-- A block that is accepted is pushed. -/
theorem chain_of_acceptBlock {s t : NodeState} {now : UInt64} {block : Block}
    (h : s.acceptBlock now block = .ok t) : t.chain = s.chain.push block := by
  obtain ⟨-, rfl⟩ := NodeState.acceptBlock_eq_ok_iff.mp h
  rfl

theorem indexed (h : Grown blocks chain) : chain.Indexed := by
  induction h with
  | start => exact indexed_start
  | push _ block ih => exact ih.push block
  | ofBlocks hok => exact Indexed.ofBlocks hok
  | @acceptBlock _ _ _ _ block _ hok ih =>
      rw [chain_of_acceptBlock hok]
      exact ih.push block

theorem blocks_eq (h : Grown blocks chain) : chain.blocks = blocks := by
  induction h with
  | start => exact blocks_start
  | push _ block ih => rw [blocks_push, ih]
  | ofBlocks hok => exact blocks_of_ofBlocks hok
  | acceptBlock _ hok ih => rw [chain_of_acceptBlock hok, blocks_push, ih]

/-- **However a chain came to be, its indexes agree with its blocks.** -/
theorem agrees (h : Grown blocks chain) : chain.Agrees blocks :=
  h.blocks_eq ▸ h.indexed.agrees_blocks

/-- A miner of two blocks is still one. -/
theorem agrees_twice_mined :
    ((Chain.start.push (.candidate ⟨[1]⟩ [] 0 0 .zero)).push (.candidate ⟨[1]⟩ [] 0 0 .zero)).Agrees
      [.genesis, .candidate ⟨[1]⟩ [] 0 0 .zero, .candidate ⟨[1]⟩ [] 0 0 .zero] :=
  agrees (.push (.push .start (.candidate ⟨[1]⟩ [] 0 0 .zero)) (.candidate ⟨[1]⟩ [] 0 0 .zero))

end Grown

end Chain

end AttestedLedger
