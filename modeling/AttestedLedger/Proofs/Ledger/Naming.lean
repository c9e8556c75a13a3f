/-
A digest names one block of a history.

A block names its parent by a digest, so a history is only as unambiguous as the digests
are.  `Distinguished` is what is asked of them: the digests of the blocks at hand collide
only where the encodings are the same.  Two blocks of a valid history never have the same
encoding, since every block but genesis holds a transaction that no other block holds.
-/
import AttestedLedger.Proofs.Codec.Prefix
import AttestedLedger.Proofs.Ledger.History

namespace AttestedLedger

/-- Blocks of word size whose digests tell their encodings apart. -/
structure Distinguished (blocks : List Block) : Prop where
  wordSized : ∀ block ∈ blocks, block.WordSized
  collisionFree : ∀ block ∈ blocks, ∀ other ∈ blocks,
    Sha256.digest block.encode = Sha256.digest other.encode → block.encode = other.encode

theorem Distinguished.mono {blocks more : List Block} (h : Distinguished more)
    (hsub : blocks ⊆ more) : Distinguished blocks where
  wordSized := fun block hblock => h.wordSized block (hsub hblock)
  collisionFree := fun block hblock other hother =>
    h.collisionFree block (hsub hblock) other (hsub hother)

/-- Genesis alone is told apart. -/
theorem distinguished_start : Distinguished Chain.start.blocks := by
  have honly : ∀ block ∈ Chain.start.blocks, block = .genesis := fun _ => List.mem_singleton.mp
  refine ⟨fun block hblock => ?_, fun block hblock other hother _ => ?_⟩
  · rw [honly block hblock]
    exact ⟨by decide, by decide, fun _ htx => absurd htx List.not_mem_nil⟩
  · rw [honly block hblock, honly other hother]

/-- **A block with transactions that the chain does not hold has a digest of its own.** -/
theorem Chain.Indexed.digest_ne_of_fresh {chain : Chain} (h : chain.Indexed) {parent block : Block}
    (hnames : Distinguished (chain.blocks ++ [block])) (hparent : parent ∈ chain.blocks)
    (hnonempty : block.transactions ≠ [])
    (hfresh : ∀ tx ∈ block.transactions, chain.isFinalized tx.digest = false) :
    parent.digest ≠ block.digest := by
  intro hdigest
  have hin : parent ∈ chain.blocks ++ [block] := List.mem_append_left _ hparent
  have hlast : block ∈ chain.blocks ++ [block] :=
    List.mem_append_right _ (List.mem_singleton_self block)
  have hsame := Block.transactions_eq_of_encode_eq (hnames.wordSized parent hin)
    (hnames.wordSized block hlast) (hnames.collisionFree parent hin block hlast hdigest)
  obtain ⟨tx, htx⟩ := List.exists_mem_of_ne_nil _ hnonempty
  have hunseen := hfresh tx htx
  rw [(h.finalized tx.digest).mpr ⟨parent, hparent, tx, hsame ▸ htx, rfl⟩] at hunseen
  exact absurd hunseen (by simp)

namespace ValidHistory

variable {p : Params} {blocks : List Block}

/-- Every block but the first holds a transaction. -/
theorem nonempty_of_succ (h : ValidHistory p blocks) {i : Nat} {block : Block}
    (hblock : blocks[i + 1]? = some block) : block.transactions ≠ [] := by
  have hlt : i + 1 < blocks.length := (List.getElem?_eq_some_iff.mp hblock).1
  obtain ⟨parent, hparent⟩ : ∃ parent, blocks[i]? = some parent :=
    ⟨_, List.getElem?_eq_getElem (Nat.lt_of_succ_lt hlt)⟩
  exact (h.succession i parent block hparent hblock).nonempty

/-- Blocks at different heights hold different transactions. -/
theorem disjoint (h : ValidHistory p blocks) {i j : Nat} (hij : i < j) {block other : Block}
    (hblock : blocks[i]? = some block) (hother : blocks[j]? = some other) :
    (block.transactions.map (·.digest)).Disjoint (other.transactions.map (·.digest)) := by
  have hdistinct := h.unrepeated
  rw [List.map_flatMap, List.nodup_flatMap] at hdistinct
  obtain ⟨hi, rfl⟩ := List.getElem?_eq_some_iff.mp hblock
  obtain ⟨hj, rfl⟩ := List.getElem?_eq_some_iff.mp hother
  exact List.pairwise_iff_getElem.mp hdistinct.2 i j hi hj hij

/-- **Blocks at different heights have different digests.** -/
theorem digest_ne (h : ValidHistory p blocks) (hnames : Distinguished blocks) {i j : Nat}
    (hij : i < j) {block other : Block} (hblock : blocks[i]? = some block)
    (hother : blocks[j]? = some other) : block.digest ≠ other.digest := by
  intro hdigest
  have hin := List.mem_of_getElem? hblock
  have hout := List.mem_of_getElem? hother
  have hencode := hnames.collisionFree block hin other hout hdigest
  have hsame := Block.transactions_eq_of_encode_eq (hnames.wordSized block hin)
    (hnames.wordSized other hout) hencode
  obtain ⟨k, rfl⟩ : ∃ k, j = k + 1 :=
    Nat.exists_eq_succ_of_ne_zero (Nat.ne_of_gt (Nat.zero_lt_of_lt hij))
  obtain ⟨tx, htx⟩ := List.exists_mem_of_ne_nil _ (h.nonempty_of_succ hother)
  exact h.disjoint hij hblock hother (hsame ▸ List.mem_map_of_mem htx) (List.mem_map_of_mem htx)

/-- The newest block is not named by the digest of any other. -/
theorem digest_ne_last {block last : Block} (h : ValidHistory p (blocks ++ [last]))
    (hnames : Distinguished (blocks ++ [last])) (hblock : block ∈ blocks) :
    block.digest ≠ last.digest := by
  obtain ⟨i, hi, rfl⟩ := List.mem_iff_getElem.mp hblock
  refine h.digest_ne hnames hi (j := blocks.length) ?_ ?_
  · rw [List.getElem?_append_left hi, List.getElem?_eq_getElem hi]
  · rw [List.getElem?_append_right (Nat.le_refl _), Nat.sub_self]
    rfl

end ValidHistory

end AttestedLedger
