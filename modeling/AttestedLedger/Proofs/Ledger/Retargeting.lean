/-
How far difficulties move along a chain.

The difficulty of a mined block is what retargeting makes of its parent's, whoever mined it:
the rules refuse any other.  So whatever is true of one retarget is true of every two blocks in
a row, and as each lies between floor and ceiling, the next one is within a step of it.  The
first mined block is the exception, since its parent is genesis, of difficulty zero.
-/
import AttestedLedger.Proofs.Ledger.History
import AttestedLedger.Proofs.Params.Retarget

namespace AttestedLedger

/-- Every retarget ends between floor and ceiling. -/
theorem retargetedAt_mem (p : Params) (height : Nat) (parent : Block) :
    (Retarget.ofParams p).minimum ≤ retargetedAt p height parent ∧
      retargetedAt p height parent ≤ (Retarget.ofParams p).maximum := by
  have hsteady := (Retarget.ordered_ofParams p).steady
  rw [retargetedAt]
  split
  · exact ⟨hsteady.floor _ _, hsteady.ceiling _ _⟩
  · exact ⟨hsteady.floor _ _, hsteady.ceiling _ _⟩

namespace ValidHistory

variable {p : Params} {blocks : List Block} {height : Nat} {parent block : Block}

theorem difficulty_eq (h : ValidHistory p blocks) (hparent : blocks[height]? = some parent)
    (hblock : blocks[height + 1]? = some block) :
    block.difficulty = retargetedAt p (height + 1) parent := by
  obtain ⟨hlt, -⟩ := List.getElem?_eq_some_iff.mp hblock
  have hdifficulty := (h.succession height parent block hparent hblock).difficulty
  rwa [List.length_take, Nat.min_eq_left (Nat.le_of_lt hlt)] at hdifficulty

/-- Mined blocks have difficulties between floor and ceiling. -/
theorem difficulty_mem (h : ValidHistory p blocks) (hblock : blocks[height + 1]? = some block) :
    (Retarget.ofParams p).minimum ≤ block.difficulty ∧
      block.difficulty ≤ (Retarget.ofParams p).maximum := by
  obtain ⟨hlt, -⟩ := List.getElem?_eq_some_iff.mp hblock
  rw [h.difficulty_eq (List.getElem?_eq_getElem (Nat.lt_of_succ_lt hlt)) hblock]
  exact retargetedAt_mem p _ _

/-- **A mined block's difficulty is within a step of its mined parent's.** -/
theorem difficulty_within_step (h : ValidHistory p blocks) (hmined : 0 < height)
    (hparent : blocks[height]? = some parent) (hblock : blocks[height + 1]? = some block) :
    parent.difficulty.toNat / (Retarget.ofParams p).maxStep.toNat ≤ block.difficulty.toNat ∧
      block.difficulty.toNat ≤ parent.difficulty.toNat * (Retarget.ofParams p).maxStep.toNat := by
  have hsteady := (Retarget.ordered_ofParams p).steady
  obtain ⟨below, rfl⟩ := Nat.exists_eq_succ_of_ne_zero (Nat.ne_of_gt hmined)
  obtain ⟨hfloor, hceiling⟩ := h.difficulty_mem hparent
  have hretargeted : block.difficulty =
      (Retarget.ofParams p).next parent.miningTime parent.difficulty := by
    rw [h.difficulty_eq hparent hblock, retargetedAt, if_neg (Nat.succ_succ_ne_one below)]
  rw [hretargeted]
  exact ⟨hsteady.falls _ _ hfloor hceiling, hsteady.rises _ _ hfloor hceiling⟩

end ValidHistory

/-- **Retargeting is steady**, whatever the parameters are, and so are the difficulties of mined
blocks in a row, in every chain that a node comes to hold by accepting blocks. -/
theorem Retarget.steady_along_chains (p : Params) :
    (ofParams p).Steady ∧
      ∀ (ops : List StateOp) (height : Nat) (parent block : Block), 0 < height →
        ((NodeState.start p).applyAll ops).chain.blocks[height]? = some parent →
        ((NodeState.start p).applyAll ops).chain.blocks[height + 1]? = some block →
          parent.difficulty.toNat / (ofParams p).maxStep.toNat ≤ block.difficulty.toNat ∧
            block.difficulty.toNat ≤ parent.difficulty.toNat * (ofParams p).maxStep.toNat := by
  refine ⟨(ordered_ofParams p).steady, ?_⟩
  intro ops height parent block hmined
  have hlawful := (NodeState.lawful_start p).applyAll ops
  exact hlawful.history.difficulty_within_step hmined

end AttestedLedger
