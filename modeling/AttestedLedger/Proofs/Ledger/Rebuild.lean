/-
Chains that their own blocks rebuild.

A chain is rebuilt by pushing its blocks one by one onto genesis, as long as each links to
the one before.  Every chain that grew by linked blocks is `Rebuilt`: the blocks alone give
back the very same chain, its indexes included, and the walk over it finds nothing broken.
So whoever keeps the blocks keeps the chain.
-/
import AttestedLedger.Proofs.Ledger.Indexes

namespace AttestedLedger.Chain

/-- The blocks of the chain give the chain. -/
def Rebuilt (chain : Chain) : Prop := ofBlocks chain.blocks = .ok chain

/-! ### Pushing linked blocks -/

theorem pushLinked_cons {chain : Chain} {block : Block} (h : block.previous = chain.tipDigest)
    (rest : List Block) : chain.pushLinked (block :: rest) = (chain.push block).pushLinked rest := by
  rw [pushLinked, if_pos h]

/-- A link that holds is the only way on. -/
theorem pushLinked_cons_eq_ok {chain extended : Chain} {block : Block} {rest : List Block} :
    chain.pushLinked (block :: rest) = .ok extended ↔
      block.previous = chain.tipDigest ∧ (chain.push block).pushLinked rest = .ok extended := by
  refine ⟨fun h => ?_, fun ⟨hlink, h⟩ => (pushLinked_cons hlink rest).trans h⟩
  by_cases hlink : block.previous = chain.tipDigest
  · exact ⟨hlink, (pushLinked_cons hlink rest).symm.trans h⟩
  · rw [pushLinked, if_neg hlink] at h
    exact absurd h (by simp)

theorem pushLinked_append {middle : Chain} (rest : List Block) :
    ∀ (front : List Block) {chain : Chain}, chain.pushLinked front = .ok middle →
      chain.pushLinked (front ++ rest) = middle.pushLinked rest := by
  intro front
  induction front with
  | nil =>
      intro chain h
      rw [Except.ok.inj h]
      rfl
  | cons block front ih =>
      intro chain h
      obtain ⟨hlink, h⟩ := pushLinked_cons_eq_ok.mp h
      rw [List.cons_append, pushLinked_cons hlink, ih h]

theorem blocks_of_pushLinked {extended : Chain} :
    ∀ (blocks : List Block) {chain : Chain}, chain.pushLinked blocks = .ok extended →
      extended.blocks = chain.blocks ++ blocks := by
  intro blocks
  induction blocks with
  | nil =>
      intro chain h
      rw [Except.ok.inj h, List.append_nil]
  | cons block rest ih =>
      intro chain h
      rw [ih (pushLinked_cons_eq_ok.mp h).2, blocks_push, ← List.append_cons]

/-! ### Rebuilding -/

/-- A chain is made of blocks that start with genesis and link. -/
theorem ofBlocks_eq_ok {blocks : List Block} {chain : Chain} :
    ofBlocks blocks = .ok chain ↔
      ∃ rest, blocks = .genesis :: rest ∧ start.pushLinked rest = .ok chain := by
  cases blocks with
  | nil => simp [ofBlocks]
  | cons first rest =>
      rw [ofBlocks]
      split
      · rename_i hfirst
        simp [hfirst]
      · rename_i hfirst
        simp [hfirst]

theorem blocks_of_ofBlocks {blocks : List Block} {chain : Chain} (h : ofBlocks blocks = .ok chain) :
    chain.blocks = blocks := by
  obtain ⟨rest, rfl, hpush⟩ := ofBlocks_eq_ok.mp h
  rw [blocks_of_pushLinked rest hpush, blocks_start, List.singleton_append]

theorem rebuilt_start : start.Rebuilt := by
  rw [Rebuilt, blocks_start]
  exact ofBlocks_eq_ok.mpr ⟨[], rfl, rfl⟩

/-- **A block that links to the tip extends a rebuilt chain to a rebuilt one.** -/
theorem Rebuilt.push {chain : Chain} (h : chain.Rebuilt) {block : Block}
    (hlink : block.previous = chain.tipDigest) : (chain.push block).Rebuilt := by
  obtain ⟨rest, hblocks, hpush⟩ := ofBlocks_eq_ok.mp h
  refine ofBlocks_eq_ok.mpr ⟨rest ++ [block], ?_, ?_⟩
  · rw [blocks_push, hblocks, List.cons_append]
  · rw [pushLinked_append [block] rest hpush, pushLinked_cons hlink]
    rfl

/-! ### The walk -/

/-- Blocks that can be pushed one by one link to each other. -/
theorem firstBroken_of_pushLinked {extended : Chain} :
    ∀ (rest : List Block) {chain : Chain} (height : Nat), chain.Indexed →
      chain.pushLinked rest = .ok extended → firstBroken height chain.tip rest = none := by
  intro rest
  induction rest with
  | nil => intro chain height _ _; rfl
  | cons block rest ih =>
      intro chain height hindexed h
      obtain ⟨hlink, h⟩ := pushLinked_cons_eq_ok.mp h
      rw [firstBroken, if_pos (hlink.trans hindexed.tip)]
      exact ih (height + 1) (hindexed.push block) h

/-- A walk that finds nothing broken has seen every block name the one before it. -/
theorem previous_eq_of_firstBroken :
    ∀ (rest : List Block) {first : Block} {start : Nat}, firstBroken start first rest = none →
      ∀ {height : Nat} {before block : Block}, (first :: rest)[height]? = some before →
        (first :: rest)[height + 1]? = some block → block.previous = before.digest := by
  intro rest
  induction rest with
  | nil =>
      intro first start _ height before block _ hblock
      exact absurd hblock (by simp)
  | cons next rest ih =>
      intro first start h height before block hbefore hblock
      rw [firstBroken] at h
      split at h
      · rename_i hlink
        cases height with
        | zero =>
            obtain rfl : first = before := Option.some.inj hbefore
            obtain rfl : next = block := Option.some.inj hblock
            exact hlink
        | succ height => exact ih h hbefore hblock
      · exact absurd h (by simp)

theorem checkTipLink_of_pushLinked {extended : Chain} :
    ∀ (rest : List Block) {chain : Chain}, chain.Indexed → chain.checkTipLink = .ok () →
      chain.pushLinked rest = .ok extended → extended.checkTipLink = .ok () := by
  intro rest
  induction rest with
  | nil =>
      intro chain _ hcheck h
      rwa [← Except.ok.inj h]
  | cons block rest ih =>
      intro chain hindexed _ h
      obtain ⟨hlink, h⟩ := pushLinked_cons_eq_ok.mp h
      exact ih (hindexed.push block) (checkTipLink_push (hlink.trans hindexed.tip)) h

/-- Every block of a rebuilt chain names the one before it. -/
theorem Rebuilt.previous_eq {chain : Chain} (h : chain.Rebuilt) {height : Nat}
    {before block : Block} (hbefore : chain.blocks[height]? = some before)
    (hblock : chain.blocks[height + 1]? = some block) : block.previous = before.digest := by
  obtain ⟨rest, hblocks, hpush⟩ := ofBlocks_eq_ok.mp h
  have hwalk : firstBroken 0 .genesis rest = none :=
    firstBroken_of_pushLinked rest 0 indexed_start hpush
  rw [hblocks] at hbefore hblock
  exact previous_eq_of_firstBroken rest hwalk hbefore hblock

/-- **The walk finds nothing broken in a rebuilt chain.** -/
theorem Rebuilt.verifyIntegrity {chain : Chain} (h : chain.Rebuilt) :
    chain.verifyIntegrity = .ok () := by
  obtain ⟨rest, hblocks, hpush⟩ := ofBlocks_eq_ok.mp h
  have hwalk : firstBroken 0 .genesis rest = none :=
    firstBroken_of_pushLinked rest 0 indexed_start hpush
  rw [Chain.verifyIntegrity, hblocks]
  dsimp only
  rw [if_pos rfl, hwalk]
  exact checkTipLink_of_pushLinked rest indexed_start checkTipLink_start hpush

end AttestedLedger.Chain
