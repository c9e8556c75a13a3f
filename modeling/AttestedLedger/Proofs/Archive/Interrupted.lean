/-
What loads after a save that was cut short.

A save makes its writes one by one, so it can stop between any two of them.  The blocks come
first, each at a height past the number that is stored, and a reader that counts the old
number never looks there: until the new number is written the archive loads as it did
before.  The tip comes last but for the pool, and once it is written the archive loads the
new chain, with whatever pool it has.

Between the number and the tip there is one place where neither holds.  The archive then
counts the blocks of the new chain and names the tip of the old one.  `load_saveCutShort`
says what loads after every number of writes, and that this place is the only one where
nothing does.
-/
import AttestedLedger.Proofs.Archive.Overlay
import AttestedLedger.Proofs.Node.Life

namespace AttestedLedger.Archive

/-! ### Writes past what is stored -/

/-- A write that stores a block, or gives a place to one, past some stored blocks. -/
inductive StoresPast (stored : List Block) : Write → Prop where
  | block (block : Block)
      (apart : ∀ other ∈ stored, Sha256.TellsApart block.encode other.encode) :
      StoresPast stored (.putChain (blockKey block.digest) block.encode)
  | place (height : Nat) (value : Bytes) (past : stored.length ≤ height) (few : height < 2 ^ 64) :
      StoresPast stored (.putChain (heightKey height) value)

variable {archive : Archive} {stored rest blocks : List Block} {tip : Digest}
  {pending : List Transaction}

/-- Another record leaves the number of blocks as it is. -/
theorem count_put {key : Bytes} (hkey : key.length ≠ 6) (archive : Archive) (value : Bytes) :
    (archive.apply (.putChain key value)).count = archive.count := by
  have hsame : (archive.chain.insert key value)[countKey]? = archive.chain[countKey]? :=
    Records.getElem?_put_of_length hkey _ _
  unfold count
  rw [apply, hsame]

/-- A record that leaves the blocks filed and is neither the number of blocks nor the tip leaves
everything as it is. -/
theorem Carries.put (h : archive.Carries stored tip pending) {key value : Bytes}
    (hfiled : Filed (archive.chain.insert key value) stored) (hcount : key.length ≠ 6)
    (htip : key.length ≠ 3) : (archive.apply (.putChain key value)).Carries stored tip pending where
  holds := { filed := hfiled, count := (count_put hcount archive value).trans h.holds.count }
  tip := (Records.getElem?_put_of_length htip _ _).trans h.tip
  pool := h.pool

theorem Carries.storesPast (h : archive.Carries stored tip pending) {write : Write}
    (hwrite : StoresPast stored write) : (archive.apply write).Carries stored tip pending := by
  have hold := h.holds.filed
  cases hwrite with
  | block block apart =>
      refine h.put ⟨fun height other hother => ?_, fun other hother => ?_⟩ (by simp) (by simp)
      · rw [Records.getElem?_put_of_length (by simp)]
        exact hold.byHeight height other hother
      · rw [Records.getElem?_put]
        split
        · rename_i hkey
          rw [apart other hother (blockKey_inj hkey)]
        · exact hold.byDigest other hother
  | place height value past few =>
      refine h.put ⟨fun lower other hother => ?_, fun other hother => ?_⟩ (by simp) (by simp)
      · obtain ⟨hlower, -⟩ := List.getElem?_eq_some_iff.mp hother
        have hne : heightKey height ≠ heightKey lower := by
          intro hc
          have hsame := heightKey_inj few (by omega) hc
          omega
        rw [Records.getElem?_put, if_neg hne]
        exact hold.byHeight lower other hother
      · rw [Records.getElem?_put_of_length (by simp)]
        exact hold.byDigest other hother

/-- However many such writes are made, the archive still carries what it did. -/
theorem Carries.applyAll_storesPast :
    ∀ (writes : List Write) {archive : Archive}, archive.Carries stored tip pending →
      (∀ write ∈ writes, StoresPast stored write) →
      (archive.applyAll writes).Carries stored tip pending := by
  intro writes
  induction writes with
  | nil => intro archive h _; exact h
  | cons write writes ih =>
      intro archive h hwrites
      exact ih (h.storesPast (hwrites write List.mem_cons_self)) fun w hw =>
        hwrites w (List.mem_cons_of_mem write hw)

theorem length_blocksWrites :
    ∀ (rest : List Block) (height : Nat), (blocksWrites height rest).length = 2 * rest.length := by
  intro rest
  induction rest with
  | nil => intro height; rfl
  | cons block rest ih =>
      intro height
      simp only [blocksWrites, blockWrites, List.length_append, List.length_cons, List.length_nil,
        ih]
      omega

theorem storesPast_blocksWrites :
    ∀ (rest : List Block) (height : Nat), stored.length ≤ height → height + rest.length ≤ 2 ^ 64 →
      (∀ block ∈ rest, ∀ other ∈ stored, Sha256.TellsApart block.encode other.encode) →
      ∀ write ∈ blocksWrites height rest, StoresPast stored write := by
  intro rest
  induction rest with
  | nil => intro height _ _ _ write hwrite; exact absurd hwrite List.not_mem_nil
  | cons block rest ih =>
      intro height hpast hfew hapart write hwrite
      rw [List.length_cons] at hfew
      rcases List.mem_append.mp hwrite with hfirst | hlater
      · simp only [blockWrites, List.mem_cons, List.not_mem_nil, or_false] at hfirst
        rcases hfirst with rfl | rfl
        · exact .block block (hapart block List.mem_cons_self)
        · exact .place height _ hpast (by omega)
      · exact ih (height + 1) (by omega) (by omega)
          (fun b hb => hapart b (List.mem_cons_of_mem block hb)) write hlater

/-! ### The last three writes -/

theorem Carries.applyCount (h : archive.Carries stored tip pending)
    (hfiled : Filed archive.chain blocks) (hfew : blocks.length < 2 ^ 64) :
    (archive.apply (countWrite blocks.length)).Carries blocks tip pending where
  holds :=
    { filed := hfiled.put (by simp) (by simp) _
      count := count_of_record hfew (Records.getElem?_put_self _ _ _) }
  tip := (Records.getElem?_put_of_length (by simp) _ _).trans h.tip
  pool := h.pool

theorem Carries.applyTip (h : archive.Carries blocks tip pending) (new : Digest) :
    (archive.apply (tipWrite new)).Carries blocks new pending where
  holds :=
    { filed := h.holds.filed.put (by simp) (by simp) _
      count := (count_put (by simp) archive new.bytes).trans h.holds.count }
  tip := Records.getElem?_put_self _ _ _
  pool := h.pool

theorem Carries.applyPool (h : archive.Carries blocks tip pending) (new : List Transaction) :
    (archive.apply (.replacePool new)).Carries blocks tip new :=
  ⟨⟨h.holds.filed, h.holds.count⟩, h.tip, rfl⟩

/-! ### Stopping -/

/-- A save of a chain that goes on from the stored one, after so many of its writes: all is as it
was until the blocks are written, the number comes before the tip, and the pool comes last. -/
theorem Carries.saveCutShort (h : archive.Carries stored tip pending) {s : NodeState}
    (hrest : stored ++ rest = s.chain.blocks) (hs : Storable s.chain.blocks) (count : Nat) :
    ∃ cut, archive.saveCutShort s count = .ok cut ∧
      (count ≤ 2 * rest.length → cut.Carries stored tip pending) ∧
      (count = 2 * rest.length + 1 → cut.Carries s.chain.blocks tip pending) ∧
      (2 * rest.length + 2 ≤ count →
        ∃ waiting, (waiting = pending ∨ waiting = s.pool.pending) ∧
          cut.Carries s.chain.blocks s.chain.tipDigest waiting) := by
  have hnotShorter : ¬s.chain.blocks.length < stored.length := by
    rw [← hrest, List.length_append]
    omega
  have hwrites := writesPast_of_not_shorter hnotShorter
  rw [← hrest, List.drop_left, hrest] at hwrites
  have hstored : ∀ write ∈ blocksWrites stored.length rest, StoresPast stored write := by
    refine storesPast_blocksWrites rest stored.length (Nat.le_refl _) ?_ ?_
    · rw [← List.length_append, hrest]
      exact Nat.le_of_lt hs.few
    · intro block hblock other hother
      exact hs.apart block (hrest ▸ List.mem_append_right _ hblock) other
        (hrest ▸ List.mem_append_left _ hother)
  have hlength := length_blocksWrites rest stored.length
  refine ⟨archive.applyAll ((writesPast stored.length s).take count), ?_, ?_, ?_, ?_⟩
  · rw [Archive.saveCutShort, saveWrites, h.holds.count]
    rfl
  · intro hfew
    rw [hwrites, List.take_append_of_le_length (by omega)]
    exact Carries.applyAll_storesPast _ h fun write hwrite =>
      hstored write (List.mem_of_mem_take hwrite)
  all_goals
    intro hmany
    have hblocks := Carries.applyAll_storesPast _ h hstored
    have hfiled := Filed.blocksWrites rest stored archive h.holds.filed (hrest ▸ hs)
    rw [hrest] at hfiled
    have hcounted := hblocks.applyCount hfiled hs.few
    obtain ⟨more, rfl⟩ : ∃ more, count = (blocksWrites stored.length rest).length + (more + 1) :=
      ⟨count - 2 * rest.length - 1, by omega⟩
    rw [hwrites, List.take_length_add_append, applyAll_append]
  · obtain rfl : more = 0 := by omega
    exact hcounted
  · have htipped := hcounted.applyTip s.chain.tipDigest
    obtain ⟨further, rfl⟩ : ∃ further, more = further + 1 := ⟨more - 1, by omega⟩
    cases further with
    | zero => exact ⟨pending, Or.inl rfl, htipped⟩
    | succ further =>
        refine ⟨s.pool.pending, Or.inr rfl, ?_⟩
        rw [List.take_of_length_le (by simp)]
        exact htipped.applyPool s.pool.pending

/-- A state saved over blocks that its chain replaces or goes on from. -/
theorem Holds.save_carries {base : Archive} {s : NodeState} (h : base.Holds stored)
    (hover : s.chain.height < stored.length ∨ stored <+: s.chain.blocks)
    (hs : Storable s.chain.blocks) :
    ∃ saved, base.save s = .ok saved ∧
      saved.Carries s.chain.blocks s.chain.tipDigest s.pool.pending := by
  have hlaid : laid stored s.chain.blocks = s.chain.blocks := by
    rwa [laid_eq_iff, Chain.length_blocks]
  obtain ⟨saved, hsave, hcarries⟩ := h.save_laid (hlaid.symm ▸ hs)
  exact ⟨saved, hsave, hlaid ▸ hcarries⟩

theorem Storable.of_prefix {front : List Block} (h : Storable blocks) (hfront : front <+: blocks) :
    Storable front where
  within := fun block hblock => h.within block (hfront.subset hblock)
  apart := fun block hblock other hother =>
    h.apart block (hfront.subset hblock) other (hfront.subset hother)
  few := Nat.lt_of_le_of_lt hfront.length_le h.few

/-- **A save that is cut short loses nothing but at one place.**  Up to the last new block the
earlier chain loads, from the tip on the later one.  Between the number of blocks and the tip
nothing loads, unless the two tips have the same digest. -/
theorem load_saveCutShort {base : Archive} {earlier later : NodeState} (hbase : base.Holds stored)
    (hover : earlier.chain.height < stored.length ∨ stored <+: earlier.chain.blocks)
    (hextends : earlier.chain.blocks <+: later.chain.blocks) (hlater : later.Storable)
    (hpending : ∀ tx ∈ earlier.pool.pending, tx.WithinLimits) (hrebuilt : earlier.chain.Rebuilt)
    (hrebuiltLater : later.chain.Rebuilt) :
    ∃ saved, base.save earlier = .ok saved ∧ ∀ count, ∃ cut,
      saved.saveCutShort later count = .ok cut ∧ ∀ p : Params,
        (count ≤ 2 * (later.chain.height - earlier.chain.height) →
          cut.LoadsChain p earlier.chain) ∧
        (count = 2 * (later.chain.height - earlier.chain.height) + 1 →
          (earlier.chain.tipDigest = later.chain.tipDigest → cut.LoadsChain p later.chain) ∧
          (earlier.chain.tipDigest ≠ later.chain.tipDigest →
            cut.load p = .error (.integrity .tipMismatch))) ∧
        (2 * (later.chain.height - earlier.chain.height) + 2 ≤ count →
          cut.LoadsChain p later.chain) := by
  obtain ⟨rest, hrest⟩ := hextends
  have hearlier := hlater.blocks.of_prefix ⟨rest, hrest⟩
  have hnew : later.chain.height - earlier.chain.height = rest.length := by
    rw [← Chain.length_blocks, ← Chain.length_blocks, ← hrest, List.length_append]
    omega
  rw [hnew]
  obtain ⟨saved, hsave, hcarries⟩ := hbase.save_carries hover hearlier
  refine ⟨saved, hsave, fun count => ?_⟩
  obtain ⟨cut, hcut, hfew, hgap, hmany⟩ := hcarries.saveCutShort hrest hlater.blocks count
  refine ⟨cut, hcut, fun p => ⟨fun hcount => ?_, fun hcount => ⟨fun htip => ?_, fun htip => ?_⟩,
    fun hcount => ?_⟩⟩
  · exact (hfew hcount).load_chain hearlier hpending hrebuilt rfl p
  · exact (hgap hcount).load_chain hlater.blocks hpending hrebuiltLater htip p
  · exact (hgap hcount).load_tipMismatch hlater.blocks hrebuiltLater htip p
  · obtain ⟨waiting, hwaiting, hcarried⟩ := hmany hcount
    refine hcarried.load_chain hlater.blocks ?_ hrebuiltLater rfl p
    rcases hwaiting with rfl | rfl
    · exact hpending
    · exact hlater.pending

theorem storable_fork : (fork 1).Storable where
  blocks := by
    have hall : StorableAll [fork 1] := storableAll_forks (by simp)
    exact ⟨hall.within _ List.mem_cons_self, hall.apart _ List.mem_cons_self _ List.mem_cons_self,
      hall.few _ List.mem_cons_self⟩
  pending := nofun

theorem start_prefix_fork : (NodeState.start {}).chain.blocks <+: (fork 1).chain.blocks := by
  rw [blocks_fork]
  exact ⟨[forkBlock 1], rfl⟩

/-- Every place but one in the save of a first block. -/
theorem load_saveCutShort_fork :
    ∃ saved, empty.save (.start {}) = .ok saved ∧ ∀ count, count ≠ 3 → ∃ cut,
      saved.saveCutShort (fork 1) count = .ok cut ∧
        (cut.LoadsChain {} .start ∨ cut.LoadsChain {} (fork 1).chain) := by
  obtain ⟨saved, hsave, hall⟩ := load_saveCutShort holds_empty (Or.inr List.nil_prefix)
    start_prefix_fork storable_fork (fun tx htx => absurd htx List.not_mem_nil)
    Chain.rebuilt_start (rebuilt_fork 1)
  refine ⟨saved, hsave, fun count hcount => ?_⟩
  obtain ⟨cut, hcut, hload⟩ := hall count
  obtain ⟨hfew, -, hmany⟩ := hload {}
  have hheights : 2 * ((fork 1).chain.height - (NodeState.start {}).chain.height) = 2 := rfl
  rw [hheights] at hfew hmany
  refine ⟨cut, hcut, ?_⟩
  rcases Nat.lt_or_ge 2 count with hlt | hle
  · exact Or.inr (hmany (by omega))
  · exact Or.inl (hfew hle)

/-- The first block is saved, and nothing loads any more when the save stops before the tip. -/
theorem saveCutShort_before_tip :
    (NodeState.start {}).chain.blocks <+: (fork 1).chain.blocks ∧ (fork 1).Storable ∧
      ∃ saved cut, empty.save (.start {}) = .ok saved ∧
        saved.saveCutShort (fork 1) 3 = .ok cut ∧
        ∃ e, cut.load {} = .error e ∧ e.isFatal = true := by
  obtain ⟨saved, hsave, hcarries⟩ := holds_empty.save_carries (Or.inr List.nil_prefix)
    (NodeState.storable_start {}).blocks
  have hrest : (NodeState.start {}).chain.blocks ++ [forkBlock 1] = (fork 1).chain.blocks := by
    rw [blocks_fork]
    rfl
  obtain ⟨cut, hcut, -, hgap, -⟩ := hcarries.saveCutShort hrest storable_fork.blocks 3
  have htip : (NodeState.start {}).chain.tipDigest ≠ (fork 1).chain.tipDigest := by
    have hdistinct := nodup_forks
    simp only [List.map_cons, List.nodup_cons, List.mem_cons] at hdistinct
    exact fun h => hdistinct.1 (Or.inl h)
  exact ⟨start_prefix_fork, storable_fork, saved, cut, hsave, hcut, _,
    (hgap rfl).load_tipMismatch storable_fork.blocks (rebuilt_fork 1) htip {}, rfl⟩

end AttestedLedger.Archive
