/-
The digest of the tip commits to the whole chain.

A block names its predecessor by a digest, so the digest of the last block stands for all
of them: two chains of the same height whose tips have the same digest are the same chain.
The induction goes down from the tip.  Equal digests give equal encodings, if the digests
tell them apart; equal encodings give equal blocks, since both are within the limits of the
format and so read back; and equal blocks name the same predecessor.

Nothing is asked of the digest but that it tells apart the blocks that stand at the same
height, which is what `ToldApart` says.
-/
import AttestedLedger.Proofs.Codec.RoundTrip
import AttestedLedger.Proofs.Codec.Scopes
import AttestedLedger.Proofs.Ledger.Rebuild

namespace AttestedLedger

/-- Blocks within the limits that have the same bytes are the same. -/
theorem Block.WithinLimits.encode_inj {block other : Block} (h : block.WithinLimits)
    (hother : other.WithinLimits) (hbytes : block.encode = other.encode) : block = other := by
  have hread := (exactCodec.readsBack block).mpr h
  rw [hbytes, (exactCodec.readsBack other).mpr hother] at hread
  exact (Except.ok.inj hread).symm

/-- The digests tell apart the blocks that stand at the same height. -/
def ToldApart (blocks others : List Block) : Prop :=
  ∀ pair ∈ blocks.zip others, Sha256.TellsApart pair.1.encode pair.2.encode

/-- What is told apart at every height is told apart at the last one and below it. -/
theorem ToldApart.of_concat {blocks others : List Block} {block other : Block}
    (hlength : blocks.length = others.length) (h : ToldApart (blocks ++ [block]) (others ++ [other])) :
    ToldApart blocks others ∧ Sha256.TellsApart block.encode other.encode := by
  unfold ToldApart at h
  rw [List.zip_append hlength] at h
  refine ⟨fun pair hpair => h pair (List.mem_append_left _ hpair), ?_⟩
  exact h (block, other) (List.mem_append_right _ (by simp))

namespace Chain

/-- The last of several linked blocks links to the chain that the others make. -/
theorem middle_of_pushLinked_concat {extended : Chain} {block : Block} :
    ∀ (front : List Block) {chain : Chain},
      chain.pushLinked (front ++ [block]) = .ok extended →
      ∃ middle, chain.pushLinked front = .ok middle ∧ block.previous = middle.tipDigest ∧
        extended = middle.push block := by
  intro front
  induction front with
  | nil =>
      intro chain h
      obtain ⟨hlink, h⟩ := pushLinked_cons_eq_ok.mp h
      exact ⟨chain, rfl, hlink, (Except.ok.inj h).symm⟩
  | cons first front ih =>
      intro chain h
      obtain ⟨hlink, h⟩ := pushLinked_cons_eq_ok.mp h
      obtain ⟨middle, hmiddle, hrest⟩ := ih h
      exact ⟨middle, (pushLinked_cons hlink front).trans hmiddle, hrest⟩

/-- Equally many blocks that are linked from one chain on and end in the same digest are the same
blocks. -/
theorem eq_of_pushLinked_tipDigest {chain extended final : Chain} :
    ∀ (blocks : List Block) {others : List Block}, blocks.length = others.length →
      (∀ block ∈ blocks, block.WithinLimits) → (∀ block ∈ others, block.WithinLimits) →
      ToldApart blocks others → chain.pushLinked blocks = .ok extended →
      chain.pushLinked others = .ok final → extended.tipDigest = final.tipDigest →
      blocks = others := by
  intro blocks
  induction blocks using List.reverseRecOn generalizing extended final with
  | nil =>
      intro others hlength _ _ _ _ _ _
      rw [List.length_nil] at hlength
      exact (List.length_eq_zero_iff.mp hlength.symm).symm
  | append_singleton front block ih =>
      intro others hlength hblocks hothers hapart hpush hpushOther htip
      rcases List.eq_nil_or_concat others with rfl | ⟨back, other, hconcat⟩
      · simp at hlength
      · rw [List.concat_eq_append] at hconcat
        subst hconcat
        have hshorter : front.length = back.length := by simpa using hlength
        have hblock := hblocks block (by simp)
        have hother := hothers other (by simp)
        obtain ⟨hbelow, hlast⟩ := hapart.of_concat hshorter
        obtain ⟨middle, hfront, hprevious, rfl⟩ := middle_of_pushLinked_concat front hpush
        obtain ⟨middle', hback, hprevious', rfl⟩ := middle_of_pushLinked_concat back hpushOther
        -- the tips are the last blocks, and the digest tells them apart
        have hsame : block = other := hblock.encode_inj hother (hlast htip)
        subst hsame
        have hdown : front = back := by
          refine ih hshorter ?_ ?_ hbelow hfront hback (hprevious.symm.trans hprevious')
          · intro b hb
            exact hblocks b (List.mem_append_left _ hb)
          · intro b hb
            exact hothers b (List.mem_append_left _ hb)
        rw [hdown]

/-- **Two rebuilt chains of the same height with the same tip digest are the same chain**, if the
digests tell their blocks apart. -/
theorem Rebuilt.eq_of_tipDigest {chain other : Chain} (h : chain.Rebuilt) (hother : other.Rebuilt)
    (hlength : chain.blocks.length = other.blocks.length)
    (hwithin : ∀ block ∈ chain.blocks, block.WithinLimits)
    (hwithinOther : ∀ block ∈ other.blocks, block.WithinLimits)
    (hapart : ToldApart chain.blocks other.blocks) (htip : chain.tipDigest = other.tipDigest) :
    chain = other := by
  obtain ⟨rest, hblocks, hpush⟩ := ofBlocks_eq_ok.mp h
  obtain ⟨rest', hblocks', hpush'⟩ := ofBlocks_eq_ok.mp hother
  rw [hblocks] at hlength hwithin hapart
  rw [hblocks'] at hlength hwithinOther hapart
  have hsame : rest = rest' := by
    refine eq_of_pushLinked_tipDigest rest (Nat.succ.inj hlength) ?_ ?_ ?_ hpush hpush' htip
    · intro block hblock
      exact hwithin block (List.mem_cons_of_mem _ hblock)
    · intro block hblock
      exact hwithinOther block (List.mem_cons_of_mem _ hblock)
    · intro pair hpair
      exact hapart pair (List.mem_cons_of_mem _ hpair)
  rw [hsame, hpush'] at hpush
  exact (Except.ok.inj hpush).symm

end Chain

end AttestedLedger
