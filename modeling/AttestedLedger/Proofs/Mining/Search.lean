/-
What a round of the search leaves behind.

Whatever a round's outcome, nothing but the nonce of its block has changed.  A round that
found a nonce leaves the block with that nonce, and its work is done.
-/
import AttestedLedger.Block.Work

namespace AttestedLedger

/-- Difficulty one admits everything. -/
theorem Target.admits_one (digest : Digest) : (ofDifficulty 1).admits digest = true := by
  have hthreshold : (ofDifficulty 1).threshold = 0xFFFFFFFFFFFFFFFF := by decide
  rw [admits, hthreshold, decide_eq_true_eq, UInt64.le_iff_toNat_le]
  exact Nat.le_of_lt_succ (UInt64.toNat_lt _)

namespace Search

/-- **A search changes nothing of its block but the nonce**, and a found nonce does the work. -/
theorem roundFrom_spec (interval : Nat) (stop : Nat → Bool) :
    ∀ (left tried : Nat) (search : Search),
      ∃ nonce, (roundFrom interval stop tried left search).2.block = { search.block with nonce } ∧
        ∀ digest, (roundFrom interval stop tried left search).1 = .found digest →
          (roundFrom interval stop tried left search).2.block.hasWork = true := by
  intro left
  induction left with
  | zero =>
      intro tried search
      refine ⟨search.block.nonce, rfl, ?_⟩
      intro digest h
      exact absurd h (by simp [roundFrom])
  | succ left ih =>
      intro tried search
      rw [roundFrom]
      dsimp only
      split
      · rename_i hadmits
        exact ⟨search.block.nonce, rfl, fun _ _ => hadmits⟩
      -- from here on the block is the one with the next nonce
      have hnext : ∀ (moved : Search) (nonce : UInt64), moved.block = search.block.nextNonce →
          ({ moved.block with nonce } : Block) = { search.block with nonce } := by
        intro moved nonce hmoved
        rw [hmoved]
        rfl
      split
      · split
        · exact ⟨search.block.nonce + 1, rfl, fun _ h => absurd h (by simp)⟩
        · obtain ⟨nonce, hblock, hwork⟩ := ih (tried + 1)
            ⟨search.block.nextNonce, search.attempts + 1, search.polls + 1⟩
          exact ⟨nonce, hblock.trans (hnext _ nonce rfl), hwork⟩
      · obtain ⟨nonce, hblock, hwork⟩ := ih (tried + 1)
          ⟨search.block.nextNonce, search.attempts + 1, search.polls⟩
        exact ⟨nonce, hblock.trans (hnext _ nonce rfl), hwork⟩

theorem round_block (nonces interval : Nat) (stop : Nat → Bool) (search : Search) :
    ∃ nonce, (round nonces interval stop search).2.block = { search.block with nonce } := by
  obtain ⟨nonce, hblock, -⟩ :=
    roundFrom_spec (max interval 1) stop nonces 0 { search with polls := 0 }
  exact ⟨nonce, hblock⟩

theorem hasWork_of_round_found {nonces interval : Nat} {stop : Nat → Bool} {search : Search}
    {digest : Digest}
    (h : (round nonces interval stop search).1 = .found digest) :
    (round nonces interval stop search).2.block.hasWork = true := by
  obtain ⟨-, -, hwork⟩ :=
    roundFrom_spec (max interval 1) stop nonces 0 { search with polls := 0 }
  exact hwork digest h

end Search

end AttestedLedger
