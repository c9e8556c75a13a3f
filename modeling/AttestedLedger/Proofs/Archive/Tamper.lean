/-
Altered records are found out.

A block is fetched by the digest that the height index gives, and nothing compares the
digest with the block that stands there.  The guarantee comes from elsewhere: a chain that
loads links from genesis to the stored tip, and the digest of the tip commits to all of it.
So the number of blocks and the tip alone decide which chain an archive can give back.
Whoever alters block records and the height index, and leaves these two, gets an error or
the same chain.

`Vouches` is what holds of a state that loads, whatever the archive holds.  `withRecord` puts
other bytes under the digest of one block, and `read_withRecord` says what is read then.
-/
import AttestedLedger.Proofs.Archive.Restore
import AttestedLedger.Proofs.Ledger.Commitment
import AttestedLedger.Proofs.Node.Life

namespace AttestedLedger

/-- Without an attempt, whatever waits is not being mined. -/
theorem NodeState.Tidy.unmined {s : NodeState} (h : s.Tidy []) {tx : Transaction}
    (htx : tx ∈ s.pool.pending) : s.pool.status? tx.digest = some .unmined := by
  have htracked := (h.orderly.tracked tx.digest).mpr (Pool.digest_mem_digests htx)
  have hmining := mt (h.mining tx htx).mp List.not_mem_nil
  have hmined := h.orderly.unmined tx.digest
  cases hstatus : s.pool.status? tx.digest with
  | none => simp [hstatus] at htracked
  | some status =>
      cases status with
      | unmined => rfl
      | mining => exact absurd hstatus hmining
      | mined => exact absurd hstatus hmined

namespace Archive

variable {archive other : Archive}

/-! ### What is read at all -/

theorem within_of_block? {digest : Digest} {block : Block}
    (h : archive.block? digest = .ok (some block)) : block.WithinLimits := by
  unfold block? at h
  split at h
  · exact absurd h (by simp)
  · rename_i value _
    split at h
    · rename_i decoded hdecode
      obtain rfl : decoded = block := by simpa using h
      exact Block.exactCodec.limited value decoded hdecode
    · exact absurd h (by simp)

theorem within_of_blockAt? {height : Nat} {block : Block}
    (h : archive.blockAt? height = .ok (some block)) : block.WithinLimits := by
  unfold blockAt? at h
  cases hdigest : archive.digestAt? height with
  | error e => simp [hdigest, bind, Except.bind] at h
  | ok digest? =>
      cases digest? with
      | none => simp [hdigest, bind, Except.bind, pure, Except.pure] at h
      | some digest =>
          simp only [hdigest, bind, Except.bind] at h
          exact within_of_block? h

/-- As many blocks are read as were asked for, each from its place. -/
theorem blocksFrom_spec :
    ∀ (left height : Nat) {blocks : List Block}, archive.blocksFrom height left = .ok blocks →
      blocks.length = left ∧ ∀ place block, blocks[place]? = some block →
        archive.blockAt? (height + place) = .ok (some block) := by
  intro left
  induction left with
  | zero =>
      intro height blocks h
      obtain rfl := Except.ok.inj h
      exact ⟨rfl, nofun⟩
  | succ left ih =>
      intro height blocks h
      unfold blocksFrom at h
      split at h
      · exact absurd h (by simp)
      · exact absurd h (by simp)
      · rename_i first hfirst
        cases hrest : archive.blocksFrom (height + 1) left with
        | error e => simp [hrest, Except.map] at h
        | ok rest =>
            obtain rfl : first :: rest = blocks := by simpa [hrest, Except.map] using h
            obtain ⟨hlength, hplaced⟩ := ih (height + 1) hrest
            refine ⟨by rw [List.length_cons, hlength], fun place block hblock => ?_⟩
            cases place with
            | zero =>
                obtain rfl := Option.some.inj hblock
                exact hfirst
            | succ place =>
                rw [show height + (place + 1) = height + 1 + place by omega]
                exact hplaced place block hblock

theorem blocks_spec {blocks : List Block} (h : archive.blocks = .ok blocks) :
    archive.count = .ok blocks.length ∧ ∀ height block, blocks[height]? = some block →
      archive.blockAt? height = .ok (some block) := by
  unfold Archive.blocks at h
  cases hcount : archive.count with
  | error e => simp [hcount, bind, Except.bind] at h
  | ok count =>
      simp only [hcount, bind, Except.bind] at h
      obtain ⟨hlength, hplaced⟩ := blocksFrom_spec count 0 h
      refine ⟨by rw [hlength], fun height block hblock => ?_⟩
      rw [← Nat.zero_add height]
      exact hplaced height block hblock

theorem within_of_blocks {blocks : List Block} (h : archive.blocks = .ok blocks) :
    ∀ block ∈ blocks, block.WithinLimits := by
  intro block hin
  obtain ⟨height, hblock⟩ := List.getElem?_of_mem hin
  exact within_of_blockAt? ((blocks_spec h).2 height block hblock)

/-! ### What is left alone -/

/-- The records of the number of blocks and of the tip are the same. -/
structure SameEnds (archive other : Archive) : Prop where
  count : other.chain[countKey]? = archive.chain[countKey]?
  tip : other.chain[tipKey]? = archive.chain[tipKey]?

/-- Block records and entries of the height index may have been added, removed or replaced, and so
may have waiting transactions. -/
def AlteredTo (archive other : Archive) : Prop :=
  ∀ key, (∀ digest, key ≠ blockKey digest) → (∀ height, key ≠ heightKey height) →
    other.chain[key]? = archive.chain[key]?

/-- The other two families of records have keys of other lengths. -/
theorem AlteredTo.sameEnds (h : archive.AlteredTo other) : archive.SameEnds other := by
  have hkept : ∀ key : Bytes, key.length ≠ 33 → key.length ≠ 9 →
      other.chain[key]? = archive.chain[key]? := by
    intro key hblock hheight
    refine h key ?_ ?_
    · rintro digest rfl
      exact hblock (length_blockKey digest)
    · rintro height rfl
      exact hheight (length_heightKey height)
  exact ⟨hkept countKey (by simp) (by simp), hkept tipKey (by simp) (by simp)⟩

theorem SameEnds.count_eq (h : archive.SameEnds other) : other.count = archive.count := by
  unfold Archive.count
  rw [h.count]

theorem SameEnds.tip?_eq (h : archive.SameEnds other) : other.tip? = archive.tip? := by
  unfold Archive.tip?
  rw [h.tip]

/-! ### What loads -/

/-- What holds of a state that was loaded from an archive. -/
structure Vouches (archive : Archive) (s : NodeState) : Prop where
  genesis : s.chain.blocks[0]? = some .genesis
  linked : ∀ height before block, s.chain.blocks[height]? = some before →
    s.chain.blocks[height + 1]? = some block → block.previous = before.digest
  /-- The digest of the last block is the stored one. -/
  tip : s.chain.tipDigest = s.chain.tip.digest ∧ archive.tip? = .ok (some s.chain.tipDigest)
  distinct : s.pool.digests.Nodup
  /-- No block holds a waiting transaction. -/
  fresh : ∀ tx ∈ s.pool.pending, ¬Recorded s.chain.blocks tx.digest
  unmined : ∀ tx ∈ s.pool.pending, s.pool.status? tx.digest = some .unmined

/-- The chain of a loaded state is that of the blocks that were read. -/
theorem chain_of_load {p : Params} {s : NodeState} (h : archive.load p = .ok (some s)) :
    archive.blocks = .ok s.chain.blocks ∧ s.chain.Rebuilt ∧
      archive.tip? = .ok (some s.chain.tipDigest) := by
  obtain ⟨chain, transactions, hblocks, hrebuilt, htip, -, rfl⟩ := load_spec h
  have hsame := (NodeState.sameLedger_submitAll transactions (.ofParts chain .empty p)).chain
  rw [hsame]
  exact ⟨hblocks, hrebuilt, htip⟩

theorem vouches_of_load {p : Params} {s : NodeState} (h : archive.load p = .ok (some s)) :
    archive.Vouches s := by
  obtain ⟨-, hrebuilt, htip⟩ := chain_of_load h
  obtain ⟨rest, hblocks, -⟩ := Chain.ofBlocks_eq_ok.mp hrebuilt
  have hsound := NodeState.sound_of_load h
  exact
    { genesis := by rw [hblocks, List.getElem?_cons_zero]
      linked := fun _ _ _ hbefore hblock => hrebuilt.previous_eq hbefore hblock
      tip := ⟨hsound.indexed.tip, htip⟩
      distinct := hsound.tidy.orderly.distinct
      fresh := by
        intro tx htx hrecorded
        have hfresh := hsound.tidy.fresh tx htx
        rw [(hsound.indexed.finalized tx.digest).mpr hrecorded] at hfresh
        exact absurd hfresh (by simp)
      unmined := fun _ htx => hsound.tidy.unmined htx }

/-- An archive with the same ends that loads at all loads a state, with as many blocks. -/
theorem SameEnds.load_some (h : archive.SameEnds other) {p q : Params} {s : NodeState}
    {result : Option NodeState} (hload : archive.load p = .ok (some s))
    (hother : other.load q = .ok result) :
    ∃ t, result = some t ∧ s.chain.blocks.length = t.chain.blocks.length := by
  have hcount := h.count_eq.trans (blocks_spec (chain_of_load hload).1).1
  cases result with
  | none =>
      -- a chain has a tip, so some block is stored
      have hblocks : other.blocks = .ok [] := by
        rcases load_cases hother with ⟨hempty, -⟩ | ⟨_, _, _, _, _, _, hsome⟩
        · exact hempty
        · exact absurd hsome (by simp)
      have hnone := (blocks_spec hblocks).1
      rw [hcount] at hnone
      have hempty : s.chain.blocks.length = 0 := Except.ok.inj hnone
      rw [Chain.length_blocks, Chain.height] at hempty
      omega
  | some t =>
      have hcount' := (blocks_spec (chain_of_load hother).1).1
      rw [hcount] at hcount'
      exact ⟨t, rfl, Except.ok.inj hcount'⟩

/-- **The number of blocks and the tip decide which chain an archive gives back**, if it gives one
back and the digests tell its blocks from those that were stored. -/
theorem SameEnds.chain_eq (h : archive.SameEnds other) {p q : Params} {s : NodeState}
    (hload : archive.load p = .ok (some s))
    (hapart : ∀ t, other.load q = .ok (some t) → ToldApart s.chain.blocks t.chain.blocks) :
    (∃ e, other.load q = .error e) ∨ ∃ t, other.load q = .ok (some t) ∧ t.chain = s.chain := by
  cases hother : other.load q with
  | error e => exact Or.inl ⟨e, rfl⟩
  | ok result =>
      obtain ⟨t, rfl, hlength⟩ := h.load_some hload hother
      obtain ⟨hblocks, hrebuilt, htip⟩ := chain_of_load hload
      obtain ⟨hblocks', hrebuilt', htip'⟩ := chain_of_load hother
      rw [h.tip?_eq, htip] at htip'
      have hdigest : s.chain.tipDigest = t.chain.tipDigest := by simpa using htip'
      have hsame := hrebuilt.eq_of_tipDigest hrebuilt' hlength (within_of_blocks hblocks)
        (within_of_blocks hblocks') (hapart t hother) hdigest
      exact Or.inr ⟨t, rfl, hsame.symm⟩

/-! ### One record replaced -/

/-- The archive with other bytes under the digest of a block. -/
def withRecord (archive : Archive) (digest : Digest) (value : Bytes) : Archive :=
  { archive with chain := archive.chain.insert (blockKey digest) value }

theorem alteredTo_withRecord (archive : Archive) (digest : Digest) (value : Bytes) :
    archive.AlteredTo (archive.withRecord digest value) :=
  fun _ hkey _ => (Records.getElem?_put _ _ _ _).trans (if_neg (Ne.symm (hkey digest)))

section Replaced

variable {blocks read : List Block} {digest : Digest} {other : Block}

theorem digestAt?_withRecord (archive : Archive) (digest : Digest) (value : Bytes) (height : Nat) :
    (archive.withRecord digest value).digestAt? height = archive.digestAt? height := by
  rw [digestAt?, withRecord, Records.getElem?_put_of_length (by simp)]
  rfl

theorem block?_withRecord_self (archive : Archive) (digest : Digest)
    (hother : other.WithinLimits) :
    (archive.withRecord digest other.encode).block? digest = .ok (some other) :=
  block?_of_record (Records.getElem?_put_self _ _ _) hother

theorem block?_withRecord_of_ne (archive : Archive) (value : Bytes) {wanted : Digest}
    (hne : digest ≠ wanted) :
    (archive.withRecord digest value).block? wanted = archive.block? wanted := by
  rw [block?, withRecord, Records.getElem?_put, if_neg (mt blockKey_inj hne)]
  rfl

/-- What is read is the other block in the place of the replaced one, and else what was filed. -/
theorem blockAt?_withRecord (h : Filed archive.chain blocks) (hs : Storable blocks)
    (hother : other.WithinLimits) {height : Nat} {block : Block}
    (hblock : blocks[height]? = some block) :
    (archive.withRecord digest other.encode).blockAt? height =
      .ok (some (if digest = block.digest then other else block)) := by
  rw [blockAt?, digestAt?_withRecord, h.digestAt? hblock]
  show (archive.withRecord digest other.encode).block? block.digest = _
  by_cases hdigest : digest = block.digest
  · rw [if_pos hdigest, ← hdigest, block?_withRecord_self archive digest hother]
  · rw [if_neg hdigest, block?_withRecord_of_ne archive _ hdigest,
      h.block? hs (List.mem_of_getElem? hblock)]

theorem read_withRecord (h : Filed archive.chain blocks) (hs : Storable blocks)
    (hother : other.WithinLimits)
    (hread : (archive.withRecord digest other.encode).blocks = .ok read) {height : Nat}
    {block found : Block} (hblock : blocks[height]? = some block)
    (hfound : read[height]? = some found) :
    found = if digest = block.digest then other else block := by
  have hplaced := (blocks_spec hread).2 height found hfound
  rw [blockAt?_withRecord h hs hother hblock] at hplaced
  exact (Option.some.inj (Except.ok.inj hplaced)).symm

/-- A block of another digest is told apart from the one it replaces. -/
theorem toldApart_withRecord (h : Filed archive.chain blocks) (hs : Storable blocks)
    (hother : other.WithinLimits) (hne : other.digest ≠ digest)
    (hread : (archive.withRecord digest other.encode).blocks = .ok read) :
    ToldApart blocks read := by
  intro pair hpair
  obtain ⟨height, hpair⟩ := List.getElem?_of_mem hpair
  obtain ⟨hblock, hfound⟩ := List.getElem?_zip_eq_some.mp hpair
  have hplaced := read_withRecord h hs hother hread hblock hfound
  by_cases hdigest : digest = pair.1.digest
  · rw [if_pos hdigest] at hplaced
    intro hsame
    exact absurd (hplaced ▸ hsame.symm.trans hdigest.symm) hne
  · rw [if_neg hdigest] at hplaced
    exact fun _ => congrArg Block.encode hplaced.symm

end Replaced

/-! ### Whatever is altered -/

/-- **Altered records are found out.**  Whatever loads is in order; another archive with the same
number of blocks and the same tip gives the same chain or none; and so does this one after any
change of its block records and its height index. -/
theorem load_finds_alterations {archive : Archive} {p : Params} {s : NodeState}
    (hload : archive.load p = .ok (some s)) :
    archive.Vouches s ∧
      (∀ other q t, archive.SameEnds other → other.load q = .ok t →
        (∀ u, t = some u → ToldApart s.chain.blocks u.chain.blocks) →
        t.map (·.chain) = some s.chain) ∧
      ∀ altered q, archive.AlteredTo altered →
        (∀ t, altered.load q = .ok (some t) → ToldApart s.chain.blocks t.chain.blocks) →
        (∃ e, altered.load q = .error e) ∨
          ∃ t, altered.load q = .ok (some t) ∧ t.chain = s.chain := by
  refine ⟨vouches_of_load hload, ?_, ?_⟩
  · intro other q result hends hother hapart
    have hends' := hends.chain_eq hload (q := q) fun t ht => by
      rw [hother] at ht
      exact hapart t (Except.ok.inj ht)
    rcases hends' with ⟨e, he⟩ | ⟨t, ht, hsame⟩
    · rw [hother] at he
      exact absurd he (by simp)
    · rw [hother] at ht
      rw [Except.ok.inj ht, Option.map_some, hsame]
  · intro altered q haltered hapart
    exact haltered.sameEnds.chain_eq hload hapart

/-- The record of a mined block is replaced by a block that would have done as well. -/
theorem load_finds_alterations_replaced :
    ∃ saved s, Archive.empty.save .grown = .ok saved ∧ saved.load .easiest = .ok (some s) ∧
      s.chain.blocks = [.genesis, Node.rivalBy ⟨[1]⟩] ∧
      s.pool.pending = [⟨.zero, .zero, 1, 2⟩] ∧ saved.Vouches s ∧
      ∀ q, ∃ e, (saved.withRecord (Node.rivalBy ⟨[1]⟩).digest
        (Node.rivalBy ⟨[2]⟩).encode).load q = .error e := by
  have hstorable := NodeState.storable_grown
  obtain ⟨saved, hsave, hkeeps⟩ := holds_empty.save List.nil_prefix hstorable
  obtain ⟨s, hload, hrestores⟩ :=
    hkeeps.load hstorable NodeState.rebuilt_grown NodeState.tidy_grown .easiest
  obtain ⟨hvouches, -, haltered⟩ := load_finds_alterations hload
  have hblocks : s.chain.blocks = [.genesis, Node.rivalBy ⟨[1]⟩] := by
    rw [hrestores.chain, NodeState.blocks_grown]
  have hfiled := hkeeps.holds.filed
  have hwithin : (Node.rivalBy ⟨[2]⟩).WithinLimits := by decide
  refine ⟨saved, s, hsave, hload, hblocks, ?_, hvouches, fun q => ?_⟩
  · exact List.perm_singleton.mp (NodeState.pending_grown ▸ hrestores.pending)
  refine (haltered _ q (alteredTo_withRecord _ _ _) fun t ht => ?_).resolve_right ?_
  · rw [hrestores.chain]
    exact toldApart_withRecord hfiled hstorable.blocks hwithin (by decide +kernel)
      (chain_of_load ht).1
  · rintro ⟨t, ht, hsame⟩
    -- the other block is read, so the chain is not the one that was saved
    have hblock : s.chain.blocks[1]? = some (Node.rivalBy ⟨[1]⟩) := by
      rw [hblocks]
      rfl
    have hread := read_withRecord hfiled hstorable.blocks hwithin (chain_of_load ht).1
      (hrestores.chain ▸ hblock) (hsame ▸ hblock)
    rw [if_pos rfl] at hread
    exact absurd hread (by decide)

end Archive

end AttestedLedger
