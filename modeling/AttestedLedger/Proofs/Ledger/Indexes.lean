/-
What a chain's indexes say about its blocks.

Beside its blocks a chain keeps the digest of its tip, the height at which each miner
first mined, and the digests of all finalized transactions.  `Chain.Indexed` says that
all three agree with the blocks.  The first chain has it and `push` keeps it, whatever
the block, so it holds of every chain that was only ever extended.

From it follow the readings that the rules rely on: `minerCount_eq` says that the number
of miners below a height is the number of distinct keys that mined one of the blocks
below it, and `isNewMiner_eq_false_iff` that a key is not new exactly when it mined one
of them.
-/
import AttestedLedger.Ledger.Chain
import Mathlib.Data.Finset.Card
import Mathlib.Data.List.Basic

namespace AttestedLedger

/-- The miners of some blocks.  A zero key is no miner. -/
def minersOf (blocks : List Block) : Finset MinerKey :=
  ((blocks.map (·.miner)).filter fun key => !key.isZero).toFinset

/-- Whether some of these blocks hold a transaction with this digest. -/
def Recorded (blocks : List Block) (tx : Digest) : Prop :=
  ∃ block ∈ blocks, ∃ t ∈ block.transactions, t.digest = tx

theorem mem_minersOf {blocks : List Block} {key : MinerKey} :
    key ∈ minersOf blocks ↔ key.isZero = false ∧ key ∈ blocks.map (·.miner) := by
  rw [minersOf, List.mem_toFinset, List.mem_filter, Bool.not_eq_true', and_comm]

theorem recorded_append {blocks more : List Block} {tx : Digest} :
    Recorded (blocks ++ more) tx ↔ Recorded blocks tx ∨ Recorded more tx := by
  simp only [Recorded, List.mem_append, or_and_right, exists_or]

theorem recorded_singleton {block : Block} {tx : Digest} :
    Recorded [block] tx ↔ tx ∈ block.transactions.map (·.digest) := by
  simp only [Recorded, List.mem_singleton, exists_eq_left, List.mem_map]

namespace Chain

/-! ### The blocks of a chain -/

@[simp] theorem blocks_start : start.blocks = [.genesis] := rfl

@[simp] theorem blocks_push (chain : Chain) (block : Block) :
    (chain.push block).blocks = chain.blocks ++ [block] := by
  simp only [blocks, push, List.reverse_cons]

@[simp] theorem height_push (chain : Chain) (block : Block) :
    (chain.push block).height = chain.height + 1 := rfl

@[simp] theorem length_blocks (chain : Chain) : chain.blocks.length = chain.height := by
  simp only [blocks, List.length_reverse, List.length_cons, height]

theorem tip_mem_blocks (chain : Chain) : chain.tip ∈ chain.blocks := by
  rw [blocks, List.mem_reverse]
  exact List.mem_cons_self

theorem getElem?_blocks_tip (chain : Chain) :
    chain.blocks[chain.earlier.length]? = some chain.tip := by
  rw [blocks, List.reverse_cons, List.getElem?_append_right (by simp)]
  simp

/-- The chain with further blocks, none of them checked. -/
def extend (chain : Chain) (blocks : List Block) : Chain := blocks.foldl push chain

theorem blocks_extend (chain : Chain) (blocks : List Block) :
    (chain.extend blocks).blocks = chain.blocks ++ blocks := by
  induction blocks generalizing chain with
  | nil => exact (List.append_nil chain.blocks).symm
  | cons block rest ih =>
      show ((chain.push block).extend rest).blocks = _
      rw [ih, blocks_push, List.append_assoc, List.singleton_append]

/-! ### The check of the tip -/

theorem checkTipLink_start : start.checkTipLink = .ok () := by
  rw [checkTipLink, start]
  simp only [ne_eq, not_true_eq_false, if_false]

/-- A block that links to the tip is a tip that passes the check. -/
theorem checkTipLink_push {chain : Chain} {block : Block} (h : block.previous = chain.tip.digest) :
    (chain.push block).checkTipLink = .ok () := by
  rw [checkTipLink]
  simp only [push, ne_eq, not_true_eq_false, if_false, h, if_true]

/-! ### Pushing a block onto the indexes -/

theorem isFinalized_push (chain : Chain) (block : Block) (tx : Digest) :
    (chain.push block).isFinalized tx = true ↔
      chain.isFinalized tx = true ∨ tx ∈ block.transactions.map (·.digest) := by
  have hfold : ∀ (l : List Transaction) (known : Std.HashSet Digest),
      (l.foldl (fun known tx => known.insert tx.digest) known).contains tx = true ↔
        known.contains tx = true ∨ tx ∈ l.map (·.digest) := by
    intro l
    induction l with
    | nil => intro known; simp
    | cons x rest ih =>
        intro known
        rw [List.foldl_cons, ih, Std.HashSet.contains_insert, List.map_cons, List.mem_cons,
          Bool.or_eq_true, beq_iff_eq]
        refine ⟨?_, ?_⟩
        · intro heither
          rcases heither with (h | h) | h
          · exact Or.inr (Or.inl h.symm)
          · exact Or.inl h
          · exact Or.inr (Or.inr h)
        · intro heither
          rcases heither with h | h | h
          · exact Or.inl (Or.inr h)
          · exact Or.inl (Or.inl h.symm)
          · exact Or.inr h
  exact hfold block.transactions chain.finalized

/-- A key is missing from an index exactly when no entry is listed under it. -/
theorem lookup_isSome_iff_mem {index : List (MinerKey × Nat)} {key : MinerKey} :
    (index.lookup key).isSome = true ↔ key ∈ index.map (·.1) := by
  rw [List.lookup_isSome_iff, List.mem_map]
  refine ⟨?_, ?_⟩
  · intro hfound
    obtain ⟨p, hp, hkey⟩ := hfound
    exact ⟨p, hp, (beq_iff_eq.mp hkey).symm⟩
  · intro hfound
    obtain ⟨p, hp, rfl⟩ := hfound
    exact ⟨p, hp, beq_self_eq_true _⟩

/-- A recorded miner is either the new one or was listed before. -/
theorem mem_recordMiner {index : List (MinerKey × Nat)} {key k : MinerKey} {height n : Nat} :
    (k, n) ∈ recordMiner key height index ↔
      (k, n) ∈ index ∨
        (k = key ∧ n = height ∧ key.isZero = false ∧ key ∉ index.map (·.1)) := by
  rw [recordMiner]
  by_cases hkeep : (key.isZero || (index.lookup key).isSome) = true
  · rw [if_pos hkeep]
    rw [Bool.or_eq_true, lookup_isSome_iff_mem] at hkeep
    refine ⟨?_, ?_⟩
    · exact Or.inl
    · intro heither
      rcases heither with h | ⟨-, -, hzero, hnew⟩
      · exact h
      · rcases hkeep with hz | hmem
        · rw [hzero] at hz
          exact absurd hz Bool.false_ne_true
        · exact absurd hmem hnew
  · rw [if_neg hkeep, List.mem_append, List.mem_singleton, Prod.mk.injEq]
    rw [Bool.or_eq_true, lookup_isSome_iff_mem, not_or, Bool.not_eq_true] at hkeep
    refine ⟨?_, ?_⟩
    · intro heither
      rcases heither with h | ⟨hk, hn⟩
      · exact Or.inl h
      · exact Or.inr ⟨hk, hn, hkeep.1, hkeep.2⟩
    · intro heither
      rcases heither with h | ⟨hk, hn, -, -⟩
      · exact Or.inl h
      · exact Or.inr ⟨hk, hn⟩

theorem nodup_recordMiner {index : List (MinerKey × Nat)} (key : MinerKey) (height : Nat)
    (h : (index.map (·.1)).Nodup) : ((recordMiner key height index).map (·.1)).Nodup := by
  rw [recordMiner]
  split
  · exact h
  · rename_i hkeep
    rw [Bool.or_eq_true, lookup_isSome_iff_mem, not_or] at hkeep
    rw [List.map_append, List.map_singleton]
    exact List.nodup_append.mpr ⟨h, List.nodup_singleton _, by
      intro a ha b hb hab
      rw [List.mem_singleton] at hb
      rw [hab, hb] at ha
      exact hkeep.2 ha⟩

/-! ### The indexes agree with the blocks -/

/-- The indexes of a chain agree with its blocks. -/
structure Indexed (chain : Chain) : Prop where
  /-- The kept digest is the tip's. -/
  tip : chain.tipDigest = chain.tip.digest
  /-- A miner is listed with the height of the first block it mined. -/
  first : ∀ key height, (key, height) ∈ chain.firstMined ↔
    key.isZero = false ∧ key ∈ chain.blocks.map (·.miner) ∧
      (chain.blocks.map (·.miner)).idxOf key = height
  /-- No miner is listed twice. -/
  once : (chain.firstMined.map (·.1)).Nodup
  /-- A digest is finalized exactly when some block holds its transaction. -/
  finalized : ∀ tx, chain.isFinalized tx = true ↔ Recorded chain.blocks tx

theorem indexed_start : start.Indexed where
  tip := by rw [start]
  first := by
    intro key height
    refine ⟨?_, ?_⟩
    · intro h
      exact absurd h List.not_mem_nil
    · intro hfacts
      obtain ⟨hzero, hmem, -⟩ := hfacts
      -- genesis is the only block, and its miner is the zero key
      rw [blocks_start, List.map_singleton, List.mem_singleton] at hmem
      rw [hmem] at hzero
      exact absurd hzero (by decide)
  once := List.nodup_nil
  finalized := by
    intro tx
    rw [blocks_start, recorded_singleton]
    refine ⟨?_, ?_⟩
    · intro h
      exact absurd h (by simp [isFinalized, start])
    · intro h
      exact absurd h List.not_mem_nil

namespace Indexed

variable {chain : Chain}

/-- Exactly the miners of the blocks are listed. -/
theorem mem_keys (h : chain.Indexed) {key : MinerKey} :
    key ∈ chain.firstMined.map (·.1) ↔ key.isZero = false ∧ key ∈ chain.blocks.map (·.miner) := by
  rw [List.mem_map]
  refine ⟨?_, ?_⟩
  · intro hfound
    obtain ⟨⟨k, n⟩, hmem, rfl⟩ := hfound
    obtain ⟨hzero, hin, -⟩ := (h.first k n).mp hmem
    exact ⟨hzero, hin⟩
  · intro hboth
    obtain ⟨hzero, hin⟩ := hboth
    exact ⟨(key, _), (h.first key _).mpr ⟨hzero, hin, rfl⟩, rfl⟩

/-- **Pushing any block keeps the indexes in agreement.** -/
theorem push (h : chain.Indexed) (block : Block) : (chain.push block).Indexed where
  tip := rfl
  first := by
    intro key height
    show (key, height) ∈ recordMiner block.miner chain.height chain.firstMined ↔ _
    rw [mem_recordMiner, h.first, h.mem_keys, blocks_push, List.map_append, List.map_singleton,
      List.mem_append, List.mem_singleton]
    by_cases hold : key ∈ chain.blocks.map (·.miner)
    · rw [List.idxOf_append_of_mem hold]
      refine ⟨?_, ?_⟩
      · intro heither
        rcases heither with ⟨hzero, -, hidx⟩ | ⟨rfl, -, hzero, hnew⟩
        · exact ⟨hzero, Or.inl hold, hidx⟩
        · exact absurd ⟨hzero, hold⟩ hnew
      · intro hfacts
        obtain ⟨hzero, -, hidx⟩ := hfacts
        exact Or.inl ⟨hzero, hold, hidx⟩
    · rw [List.idxOf_append_of_notMem hold, List.length_map, length_blocks]
      refine ⟨?_, ?_⟩
      · intro heither
        rcases heither with ⟨-, hin, -⟩ | ⟨rfl, rfl, hzero, -⟩
        · exact absurd hin hold
        · exact ⟨hzero, Or.inr rfl, by simp⟩
      · intro hfacts
        obtain ⟨hzero, hin, hidx⟩ := hfacts
        rcases hin with hin | rfl
        · exact absurd hin hold
        · refine Or.inr ⟨rfl, ?_, hzero, fun hc => hold hc.2⟩
          rw [← hidx]
          simp
  once := nodup_recordMiner _ _ h.once
  finalized := by
    intro tx
    rw [isFinalized_push, h.finalized, blocks_push, recorded_append, recorded_singleton]

theorem pushLinked :
    ∀ (blocks : List Block) {chain extended : Chain}, chain.Indexed →
      chain.pushLinked blocks = .ok extended → extended.Indexed := by
  intro blocks
  induction blocks with
  | nil =>
      intro chain extended h hok
      rw [Chain.pushLinked] at hok
      exact Except.ok.inj hok ▸ h
  | cons block rest ih =>
      intro chain extended h hok
      rw [Chain.pushLinked] at hok
      split at hok
      · exact ih (h.push block) hok
      · exact absurd hok (by simp)

/-- A chain rebuilt from its blocks has indexes that agree with them. -/
theorem ofBlocks {blocks : List Block} (hok : Chain.ofBlocks blocks = .ok chain) :
    chain.Indexed := by
  cases blocks with
  | nil => exact absurd hok (by simp [Chain.ofBlocks])
  | cons first rest =>
      rw [Chain.ofBlocks] at hok
      split at hok
      · exact pushLinked rest indexed_start hok
      · exact absurd hok (by simp)

/-- Whatever blocks are pushed, the indexes agree with them. -/
theorem extend :
    ∀ (blocks : List Block) {chain : Chain}, chain.Indexed → (chain.extend blocks).Indexed := by
  intro blocks
  induction blocks with
  | nil => intro chain h; exact h
  | cons block rest ih => intro chain h; exact ih (h.push block)

/-! ### What the rules read off the indexes -/

theorem mem_take_iff (h : chain.Indexed) {key : MinerKey} {n : Nat} :
    (∃ first, (key, first) ∈ chain.firstMined ∧ first < n) ↔
      key ∈ minersOf (chain.blocks.take n) := by
  rw [mem_minersOf, List.map_take]
  refine ⟨?_, ?_⟩
  · intro hfound
    obtain ⟨first, hmem, hlt⟩ := hfound
    obtain ⟨hzero, hin, rfl⟩ := (h.first key first).mp hmem
    exact ⟨hzero, (List.mem_take_iff_idxOf_lt hin).mpr hlt⟩
  · intro hboth
    obtain ⟨hzero, htake⟩ := hboth
    have hin := List.mem_of_mem_take htake
    exact ⟨_, (h.first key _).mpr ⟨hzero, hin, rfl⟩, (List.mem_take_iff_idxOf_lt hin).mp htake⟩

/-- The number of miners below a height is the number of distinct keys that mined there. -/
theorem minerCount_eq (h : chain.Indexed) (n : Nat) :
    chain.minerCount n = (minersOf (chain.blocks.take n)).card := by
  have hnodup : ((chain.firstMined.filter (fun p => decide (p.2 < n))).map (·.1)).Nodup :=
    (List.filter_sublist.map _).nodup h.once
  have hset : ((chain.firstMined.filter (fun p => decide (p.2 < n))).map (·.1)).toFinset
      = minersOf (chain.blocks.take n) := by
    ext key
    rw [List.mem_toFinset, List.mem_map, ← h.mem_take_iff]
    refine ⟨?_, ?_⟩
    · intro hfound
      obtain ⟨⟨k, first⟩, hmem, rfl⟩ := hfound
      rw [List.mem_filter, decide_eq_true_eq] at hmem
      exact ⟨first, hmem⟩
    · intro hfound
      obtain ⟨first, hmem, hlt⟩ := hfound
      exact ⟨(key, first), List.mem_filter.mpr ⟨hmem, decide_eq_true hlt⟩, rfl⟩
  calc chain.minerCount n
      = ((chain.firstMined.filter (fun p => decide (p.2 < n))).map (·.1)).length := by
        rw [minerCount, List.countP_eq_length_filter, List.length_map]
    _ = (minersOf (chain.blocks.take n)).card := by
        rw [← hset, List.toFinset_card_of_nodup hnodup]

/-- A key is not new at a height exactly when it mined a block below it. -/
theorem isNewMiner_eq_false_iff (h : chain.Indexed) {key : MinerKey} {n : Nat} :
    chain.isNewMiner key n = false ↔ key ∈ minersOf (chain.blocks.take n) := by
  rw [← h.mem_take_iff, isNewMiner, firstHeight?]
  cases hfind : chain.firstMined.lookup key with
  | none =>
      refine ⟨?_, ?_⟩
      · intro hc
        exact absurd hc (by simp)
      · intro hfound
        obtain ⟨first, hmem, -⟩ := hfound
        have hsome := lookup_isSome_iff_mem.mpr (List.mem_map_of_mem (f := (·.1)) hmem)
        rw [hfind] at hsome
        exact absurd hsome (by simp)
  | some first =>
      obtain ⟨front, back, hsplit, -⟩ := List.lookup_eq_some_iff.mp hfind
      have hmem : (key, first) ∈ chain.firstMined := by
        rw [hsplit]
        exact List.mem_append_right _ List.mem_cons_self
      show decide (n ≤ first) = false ↔ _
      rw [decide_eq_false_iff_not, Nat.not_le]
      refine ⟨?_, ?_⟩
      · intro hlt
        exact ⟨first, hmem, hlt⟩
      · intro hfound
        obtain ⟨other, hother, hlt⟩ := hfound
        -- both entries stand at the index of the miner's first block
        obtain ⟨-, -, hfirst⟩ := (h.first key first).mp hmem
        obtain ⟨-, -, hidx⟩ := (h.first key other).mp hother
        rw [← hfirst, hidx]
        exact hlt

/-- The keys that have mined are the miners of the blocks. -/
theorem mem_miners (h : chain.Indexed) {key : MinerKey} :
    key ∈ chain.miners ↔ key ∈ minersOf chain.blocks := by
  rw [miners, h.mem_keys, mem_minersOf]

end Indexed

end Chain

end AttestedLedger
