/-
Rebuilding a chain and walking it find the same fault.

Two procedures look for a block that does not name the one before it.  `ofBlocks` compares
each block, before it pushes it, with the digest that it kept when it pushed the one before;
`verifyIntegrity` is given a chain whose blocks were never compared, digests each of them anew
and counts the heights itself.  What makes them agree is that a chain keeps the digest of its
tip, whatever is pushed: so `pushLinked` is the walk over the blocks it is given, and when
the walk finds nothing it has pushed them all (`pushLinked_eq`).

`rebuild_audits` puts this together with what a broken link is in terms of the blocks alone
(`BrokenAt`), and with the chains that grew by accepted blocks, which their own blocks give
back.
-/
import AttestedLedger.Proofs.Ledger.History
import AttestedLedger.Proofs.Ledger.Rebuild
import Mathlib.Order.Bounds.Basic

namespace AttestedLedger.Chain

/-! ### Broken links, in terms of the blocks -/

/-- The block at a height names another block than the one below it.  Genesis has none below. -/
def BrokenAt (blocks : List Block) : Nat → Prop
  | 0 => False
  | below + 1 => ∃ before block, blocks[below]? = some before ∧ blocks[below + 1]? = some block ∧
      block.previous ≠ before.digest

/-- The blocks start with genesis, and every later one names the one below it. -/
structure Linked (blocks : List Block) : Prop where
  genesis : blocks.head? = some .genesis
  names : ∀ (below : Nat) (before block : Block), blocks[below]? = some before →
    blocks[below + 1]? = some block → block.previous = before.digest

theorem brokenAt_one {first next : Block} {rest : List Block} :
    BrokenAt (first :: next :: rest) 1 ↔ next.previous ≠ first.digest := by
  refine ⟨?_, fun hbroken => ⟨first, next, rfl, rfl, hbroken⟩⟩
  rintro ⟨before, block, hbefore, hblock, hbroken⟩
  obtain rfl : first = before := Option.some.inj hbefore
  obtain rfl : next = block := Option.some.inj hblock
  exact hbroken

/-- A height past the first link is one of the blocks after the first. -/
theorem brokenAt_cons {first : Block} {rest : List Block} {height : Nat} :
    BrokenAt (first :: rest) (height + 2) ↔ BrokenAt rest (height + 1) := Iff.rfl

theorem Linked.not_brokenAt {blocks : List Block} (h : Linked blocks) :
    ∀ height, ¬BrokenAt blocks height := by
  rintro (_ | below) hbroken
  · exact hbroken
  · obtain ⟨before, block, hbefore, hblock, hne⟩ := hbroken
    exact hne (h.names below before block hbefore hblock)

/-! ### What the walk finds -/

/-- A height that the walk reports is that of the first broken link. -/
theorem isLeast_of_firstBroken :
    ∀ (rest : List Block) {first : Block} {start height : Nat},
      firstBroken start first rest = some height →
        ∃ place, height = start + place ∧ IsLeast {h | BrokenAt (first :: rest) h} place := by
  intro rest
  induction rest with
  | nil =>
      intro first start height h
      exact absurd h (by simp [firstBroken])
  | cons next rest ih =>
      intro first start height h
      rw [firstBroken] at h
      split at h
      · rename_i hlink
        obtain ⟨place, rfl, hbroken, hleast⟩ := ih h
        cases place with
        | zero => exact absurd hbroken id
        | succ place =>
            refine ⟨place + 2, by omega, hbroken, ?_⟩
            -- the link in front holds, and the others are those of the blocks after it
            rintro (_ | _ | later) hlater
            · exact absurd hlater id
            · exact absurd hlink (brokenAt_one.mp hlater)
            · exact Nat.succ_le_succ (hleast (brokenAt_cons.mp hlater))
      · rename_i hlink
        obtain rfl : start + 1 = height := Option.some.inj h
        refine ⟨1, rfl, brokenAt_one.mpr hlink, ?_⟩
        rintro (_ | later) hlater
        · exact absurd hlater id
        · exact Nat.succ_le_succ (Nat.zero_le later)

/-- **Pushing with a look at each link is the walk over what is pushed.** -/
theorem pushLinked_eq :
    ∀ (rest : List Block) {chain : Chain}, chain.tipDigest = chain.tip.digest →
      chain.pushLinked rest =
        match firstBroken chain.earlier.length chain.tip rest with
        | some height => .error (.brokenLink height)
        | none => .ok (chain.extend rest) := by
  intro rest
  induction rest with
  | nil => intro chain _; rfl
  | cons block rest ih =>
      intro chain htip
      rw [pushLinked, firstBroken, htip]
      split
      · exact @ih (chain.push block) rfl
      · rfl

/-! ### Rebuilding -/

/-- What rebuilding makes of blocks that start with genesis. -/
theorem ofBlocks_genesis (rest : List Block) :
    ofBlocks (.genesis :: rest) =
      match firstBroken 0 .genesis rest with
      | some height => .error (.brokenLink height)
      | none => .ok (start.extend rest) := by
  rw [ofBlocks, if_pos rfl]
  exact pushLinked_eq rest indexed_start.tip

/-- **Blocks can be rebuilt exactly when they are linked.** -/
theorem exists_ofBlocks_iff {blocks : List Block} :
    (∃ chain, ofBlocks blocks = .ok chain) ↔ Linked blocks := by
  constructor
  · rintro ⟨chain, hok⟩
    obtain ⟨rest, rfl, hpush⟩ := ofBlocks_eq_ok.mp hok
    have hwalk : firstBroken 0 .genesis rest = none :=
      firstBroken_of_pushLinked rest 0 indexed_start hpush
    exact ⟨rfl, fun _ _ _ => previous_eq_of_firstBroken rest hwalk⟩
  · intro h
    obtain ⟨rest, rfl⟩ := List.head?_eq_some_iff.mp h.genesis
    refine ⟨start.extend rest, ?_⟩
    rw [ofBlocks_genesis]
    cases hwalk : firstBroken 0 .genesis rest with
    | none => rfl
    | some height =>
        obtain ⟨place, -, hbroken, -⟩ := isLeast_of_firstBroken rest hwalk
        exact absurd hbroken (h.not_brokenAt place)

/-- **Rebuilding blames the first broken link.** -/
theorem ofBlocks_eq_brokenLink_iff {rest : List Block} {height : Nat} :
    ofBlocks (.genesis :: rest) = .error (.brokenLink height) ↔
      IsLeast {h | BrokenAt (.genesis :: rest) h} height := by
  rw [ofBlocks_genesis]
  cases hwalk : firstBroken 0 .genesis rest with
  | none =>
      have hlinked : Linked (.genesis :: rest) :=
        ⟨rfl, fun _ _ _ => previous_eq_of_firstBroken rest hwalk⟩
      exact ⟨fun h => absurd h (by simp), fun h => absurd h.1 (hlinked.not_brokenAt height)⟩
  | some found =>
      obtain ⟨place, hplace, hleast⟩ := isLeast_of_firstBroken rest hwalk
      obtain rfl : found = place := by rw [hplace, Nat.zero_add]
      constructor
      · intro h
        obtain rfl : found = height := IntegrityError.brokenLink.inj (Except.error.inj h)
        exact hleast
      · intro h
        rw [hleast.unique h]

/-- Rebuilding blocks and walking over them, pushed without a look, come to one verdict. -/
theorem ofBlocks_map_eq_verifyIntegrity (rest : List Block) :
    (ofBlocks (.genesis :: rest)).map (fun _ => ()) = (start.extend rest).verifyIntegrity := by
  have hblocks : (start.extend rest).blocks = .genesis :: rest := by
    rw [blocks_extend, blocks_start, List.singleton_append]
  have hrebuild := ofBlocks_genesis rest
  cases hwalk : firstBroken 0 .genesis rest with
  | none =>
      rw [hwalk] at hrebuild
      have hrebuilt : (start.extend rest).Rebuilt := by rw [Rebuilt, hblocks, hrebuild]
      rw [hrebuild, hrebuilt.verifyIntegrity]
      rfl
  | some height =>
      rw [hwalk] at hrebuild
      rw [hrebuild, verifyIntegrity, hblocks]
      dsimp only
      rw [if_pos rfl, hwalk]
      rfl

/-! ### Chains that grew by accepted blocks -/

/-- The chains that a node can hold: the first one, those rebuilt from what was kept, and what
accepting blocks makes of them. -/
inductive Accepted : Chain → Prop where
  | start : Accepted start
  | ofBlocks {blocks : List Block} {chain : Chain} (hok : ofBlocks blocks = .ok chain) :
      Accepted chain
  | acceptBlock {s t : NodeState} {now : UInt64} {block : Block} (h : Accepted s.chain)
      (hok : s.acceptBlock now block = .ok t) : Accepted t.chain

/-- **An accepted chain is given back by its blocks**, for an accepted block links to the tip. -/
theorem Accepted.rebuilt {chain : Chain} (h : Accepted chain) : chain.Rebuilt := by
  induction h with
  | start => exact rebuilt_start
  | ofBlocks hok => rwa [Rebuilt, blocks_of_ofBlocks hok]
  | acceptBlock _ hok ih =>
      obtain ⟨hacceptable, rfl⟩ := NodeState.acceptBlock_eq_ok_iff.mp hok
      exact ih.push hacceptable.onTip

/-- **Rebuilding a chain and auditing it agree.**  Blocks are rebuilt exactly when they are
linked, into a chain of these very blocks; blocks that start with genesis are refused exactly
as the walk refuses them once they are pushed unchecked, for the least height at which a link
is broken; and the blocks of an accepted chain give back the chain, indexes included. -/
theorem rebuild_audits :
    (∀ blocks, ((∃ chain, ofBlocks blocks = .ok chain) ↔ Linked blocks) ∧
      ∀ chain, ofBlocks blocks = .ok chain → chain.blocks = blocks) ∧
    (∀ rest,
      (ofBlocks (.genesis :: rest)).map (fun _ => ()) = (start.extend rest).verifyIntegrity ∧
      ∀ height, ofBlocks (.genesis :: rest) = .error (.brokenLink height) ↔
        IsLeast {h | BrokenAt (.genesis :: rest) h} height) ∧
    ∀ chain, Accepted chain → ofBlocks chain.blocks = .ok chain := by
  refine ⟨fun blocks => ⟨exists_ofBlocks_iff, fun _ => blocks_of_ofBlocks⟩, ?_, ?_⟩
  · exact fun rest => ⟨ofBlocks_map_eq_verifyIntegrity rest, fun _ => ofBlocks_eq_brokenLink_iff⟩
  · exact fun _ haccepted => haccepted.rebuilt

/-- A block that names genesis. -/
def heir : Block := .candidate .zero [] 0 0 Block.genesis.digest

/-- The block after genesis is in place, but not behind itself. -/
theorem rebuild_audits_heirs :
    (Accepted (start.push heir) ∧ ofBlocks [.genesis, heir] = .ok (start.push heir)) ∧
      IsLeast {h | BrokenAt [.genesis, heir, heir] h} 2 ∧
        ofBlocks [.genesis, heir, heir] = .error (.brokenLink 2) := by
  have hlink : heir.previous = Block.genesis.digest := by rw [heir, Block.candidate]
  have haccepted : Accepted (start.push heir) :=
    .ofBlocks (ofBlocks_eq_ok.mpr ⟨[heir], rfl, pushLinked_cons hlink []⟩)
  have hleast : IsLeast {h | BrokenAt [.genesis, heir, heir] h} 2 := by
    refine ⟨brokenAt_cons.mpr (brokenAt_one.mpr (by decide +kernel)), ?_⟩
    rintro (_ | _ | later) hlater
    · exact absurd hlater id
    · exact absurd hlink (brokenAt_one.mp hlater)
    · exact Nat.succ_le_succ (Nat.succ_le_succ (Nat.zero_le later))
  have hback := rebuild_audits.2.2 _ haccepted
  rw [blocks_push, blocks_start, List.singleton_append] at hback
  exact ⟨⟨haccepted, hback⟩, hleast, ((rebuild_audits.2.1 [heir, heir]).2 2).mpr hleast⟩

end AttestedLedger.Chain
