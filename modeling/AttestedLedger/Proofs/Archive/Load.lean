/-
What a state restored from an archive is made of.

Nothing is assumed of the archive.  If `load` gives a state, its chain is rebuilt by the
blocks that were read, so its indexes agree with the blocks and its tip links, the stored
tip is the chain's, and its pool was filled from nothing by submitting transactions one
after another.
-/
import AttestedLedger.Archive.Snapshot
import AttestedLedger.Proofs.Ledger.Rebuild

namespace AttestedLedger

/-- A chain that passes the whole walk passes the check of its tip. -/
theorem Chain.checkTipLink_of_verifyIntegrity {chain : Chain}
    (h : chain.verifyIntegrity = .ok ()) : chain.checkTipLink = .ok () := by
  rw [verifyIntegrity] at h
  split at h
  · exact absurd h (by simp)
  split at h
  · split at h
    · exact absurd h (by simp)
    · exact h
  · exact absurd h (by simp)

namespace Archive

/-- A stored chain that loads is rebuilt by the blocks, and the stored tip is its own. -/
theorem loadChain_spec {archive : Archive} {blocks : List Block} {chain : Chain}
    (h : archive.loadChain blocks = .ok chain) :
    Chain.ofBlocks blocks = .ok chain ∧ archive.tip? = .ok (some chain.tipDigest) := by
  rw [loadChain] at h
  cases hchain : Chain.ofBlocks blocks with
  | error e =>
      rw [hchain] at h
      exact absurd h (by simp)
  | ok rebuilt =>
      rw [hchain] at h
      dsimp only at h
      split at h
      · exact absurd h (by simp)
      split at h
      · exact absurd h (by simp)
      · rename_i tip htip
        split at h
        · rename_i hsame
          obtain rfl := Except.ok.inj h
          exact ⟨rfl, hsame ▸ htip⟩
        · exact absurd h (by simp)

/-- **What a load can give**: nothing, where no block is stored, or the chain of the stored blocks,
which ends in the stored tip, with the stored transactions submitted to an empty pool. -/
theorem load_cases {archive : Archive} {p : Params} {result : Option NodeState}
    (h : archive.load p = .ok result) :
    (archive.blocks = .ok [] ∧ result = none) ∨
    ∃ (chain : Chain) (transactions : List Transaction), archive.blocks = .ok chain.blocks ∧
      chain.Rebuilt ∧ archive.tip? = .ok (some chain.tipDigest) ∧
      archive.transactions = .ok transactions ∧
      result = some ((NodeState.ofParts chain .empty p).submitAll transactions) := by
  rw [load] at h
  cases hblocks : archive.blocks with
  | error e =>
      rw [hblocks] at h
      exact absurd h (by simp [bind, Except.bind])
  | ok blocks =>
      rw [hblocks] at h
      cases blocks with
      | nil => exact Or.inl ⟨rfl, (Except.ok.inj h).symm⟩
      | cons first rest =>
          cases hchain : archive.loadChain (first :: rest) with
          | error e => exact absurd h (by simp [bind, Except.bind, hchain])
          | ok chain =>
              cases htxs : archive.transactions with
              | error e => exact absurd h (by simp [bind, Except.bind, hchain, htxs])
              | ok transactions =>
                  obtain ⟨hbuilt, htip⟩ := loadChain_spec hchain
                  have hsame := Chain.blocks_of_ofBlocks hbuilt
                  refine Or.inr ⟨chain, transactions, by rw [hsame], ?_, htip, rfl, ?_⟩
                  · rw [Chain.Rebuilt, hsame]
                    exact hbuilt
                  · simp only [bind, Except.bind, hchain, htxs, pure, Except.pure] at h
                    exact (Except.ok.inj h).symm

theorem load_spec {archive : Archive} {p : Params} {s : NodeState}
    (h : archive.load p = .ok (some s)) :
    ∃ (chain : Chain) (transactions : List Transaction), archive.blocks = .ok chain.blocks ∧
      chain.Rebuilt ∧ archive.tip? = .ok (some chain.tipDigest) ∧
      archive.transactions = .ok transactions ∧
      s = (NodeState.ofParts chain .empty p).submitAll transactions := by
  rcases load_cases h with ⟨-, hnone⟩ | ⟨chain, transactions, hblocks, hrebuilt, htip, htxs, hsome⟩
  · exact absurd hnone (by simp)
  · exact ⟨chain, transactions, hblocks, hrebuilt, htip, htxs, Option.some.inj hsome⟩

end Archive

end AttestedLedger
