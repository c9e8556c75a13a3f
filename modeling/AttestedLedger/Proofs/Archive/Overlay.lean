/-
What an archive gives back after any sequence of saves.

A save looks at nothing but how many blocks are stored, so a chain that is not shorter than
what is stored is laid over it block by block past that number.  If it does not begin with
the stored blocks, the archive is left with the first blocks of one chain, the last blocks
of another and the tip of the second, and the next load says that the stored chain is
corrupt.

`laidBy` follows the stored blocks through a sequence of saves into an archive that was
empty.  `load_saveAll` says what loads then, for chains of any lengths that share any first
blocks: the last chain exactly if it is shorter than what was stored before it or begins
with it, and nothing at all otherwise.
-/
import AttestedLedger.Proofs.Archive.Restore
import AttestedLedger.Proofs.Ledger.Commitment
import AttestedLedger.Proofs.Ledger.History

namespace AttestedLedger

namespace Archive

/-! ### What loads -/

/-- Loading gives a state with this chain. -/
def LoadsChain (archive : Archive) (p : Params) (chain : Chain) : Prop :=
  ∃ s, archive.load p = .ok (some s) ∧ s.chain = chain

section Load

variable {archive : Archive} {blocks : List Block} {tip : Digest} {pending : List Transaction}

/-- Nothing is among the records of waiting transactions but the records of these. -/
theorem mem_toList_putAll :
    ∀ (transactions : List Transaction) (records : Records) {entry : Bytes × Bytes},
      entry ∈ (transactions.foldl (fun records tx => records.insert tx.digest.bytes tx.encode)
        records).toList →
      entry ∈ records.toList ∨ ∃ tx ∈ transactions, entry = poolEntry tx := by
  intro transactions
  induction transactions with
  | nil => intro records entry h; exact Or.inl h
  | cons tx rest ih =>
      intro records entry h
      rcases ih (records.insert tx.digest.bytes tx.encode) h with hold | ⟨t, ht, hentry⟩
      · have hfound := Std.TreeMap.mem_toList_iff_getElem?_eq_some.mp hold
        rw [Records.getElem?_put] at hfound
        split at hfound
        · rename_i hkey
          exact Or.inr ⟨tx, List.mem_cons_self, Prod.ext hkey.symm (Option.some.inj hfound).symm⟩
        · exact Or.inl (Std.TreeMap.mem_toList_iff_getElem?_eq_some.mpr hfound)
      · exact Or.inr ⟨t, List.mem_cons_of_mem tx ht, hentry⟩

/-- Records of transactions within the limits are read, however many of them are the same. -/
theorem readPool_entries :
    ∀ entries : List (Bytes × Bytes),
      (∀ entry ∈ entries, ∃ tx : Transaction, tx.WithinLimits ∧ entry = poolEntry tx) →
      ∃ transactions, readPool entries = .ok transactions := by
  intro entries
  induction entries with
  | nil => intro _; exact ⟨[], rfl⟩
  | cons entry rest ih =>
      intro h
      obtain ⟨tx, hwithin, rfl⟩ := h entry List.mem_cons_self
      obtain ⟨transactions, hrest⟩ := ih fun e he => h e (List.mem_cons_of_mem _ he)
      refine ⟨tx :: transactions, ?_⟩
      rw [poolEntry, readPool, (Transaction.exactCodec.readsBack tx).mpr hwithin]
      dsimp only
      rw [if_pos rfl, hrest]
      rfl

theorem Carries.transactions (h : archive.Carries blocks tip pending)
    (hpending : ∀ tx ∈ pending, tx.WithinLimits) :
    ∃ transactions, archive.transactions = .ok transactions := by
  refine readPool_entries _ fun entry hentry => ?_
  rw [h.pool] at hentry
  rcases mem_toList_putAll pending ∅ hentry with hnone | ⟨tx, htx, heq⟩
  · exact absurd hnone List.not_mem_nil
  · exact ⟨tx, hpending tx htx, heq⟩

/-- With the tip of the chain that the blocks make, that chain loads. -/
theorem Carries.load_chain {chain : Chain} (h : archive.Carries chain.blocks tip pending)
    (hs : Storable chain.blocks) (hpending : ∀ tx ∈ pending, tx.WithinLimits)
    (hrebuilt : chain.Rebuilt) (htip : tip = chain.tipDigest) (p : Params) :
    archive.LoadsChain p chain := by
  obtain ⟨transactions, hread⟩ := h.transactions hpending
  have hload := loadChain_of_rebuilt hrebuilt (htip ▸ h.tip)
  obtain ⟨rest, hblocks, -⟩ := Chain.ofBlocks_eq_ok.mp hrebuilt
  rw [hblocks] at hload
  refine ⟨(NodeState.ofParts chain .empty p).submitAll transactions, ?_,
    (NodeState.sameLedger_submitAll transactions _).chain⟩
  rw [Archive.load, h.holds.blocks_eq hs, hblocks]
  simp only [bind, Except.bind, pure, Except.pure, hload, hread]

/-- With any other tip, nothing loads. -/
theorem Carries.load_tipMismatch {chain : Chain} (h : archive.Carries chain.blocks tip pending)
    (hs : Storable chain.blocks) (hrebuilt : chain.Rebuilt) (htip : tip ≠ chain.tipDigest)
    (p : Params) : archive.load p = .error (.integrity .tipMismatch) := by
  have hread : archive.tip? = .ok (some tip) := by
    rw [tip?, h.tip]
    dsimp only
    rw [readDigest_bytes]
    rfl
  have hload : archive.loadChain chain.blocks = .error (.integrity .tipMismatch) := by
    rw [loadChain, show Chain.ofBlocks chain.blocks = .ok chain from hrebuilt]
    dsimp only
    rw [hrebuilt.verifyIntegrity]
    dsimp only
    rw [hread]
    dsimp only
    rw [if_neg fun hc => htip (Option.some.inj hc)]
  obtain ⟨rest, hblocks, -⟩ := Chain.ofBlocks_eq_ok.mp hrebuilt
  rw [hblocks] at hload
  rw [Archive.load, h.holds.blocks_eq hs, hblocks]
  simp only [bind, Except.bind, hload]

/-- Blocks that make no chain do not load. -/
theorem Carries.load_broken {e : IntegrityError} (h : archive.Carries blocks tip pending)
    (hs : Storable blocks) (hsome : blocks ≠ []) (hbroken : Chain.ofBlocks blocks = .error e)
    (p : Params) : archive.load p = .error (.integrity e) := by
  have hload : archive.loadChain blocks = .error (.integrity e) := by
    rw [loadChain, hbroken]
  rw [Archive.load, h.holds.blocks_eq hs]
  cases blocks with
  | nil => exact absurd rfl hsome
  | cons first rest => simp only [bind, Except.bind, hload]

/-- **Blocks of another chain than the tip's do not load**, though they are as many. -/
theorem Carries.load_other {chain : Chain} (h : archive.Carries blocks chain.tipDigest pending)
    (hs : Storable blocks) (hlength : blocks.length = chain.blocks.length)
    (hother : blocks ≠ chain.blocks) (hrebuilt : chain.Rebuilt)
    (hwithin : ∀ block ∈ chain.blocks, block.WithinLimits)
    (hapart : ToldApart chain.blocks blocks) (p : Params) :
    ∃ e, archive.load p = .error (.integrity e) := by
  cases hmade : Chain.ofBlocks blocks with
  | error e =>
      refine ⟨e, h.load_broken hs ?_ hmade p⟩
      rintro rfl
      rw [List.length_nil, Chain.length_blocks] at hlength
      exact absurd hlength (Nat.succ_ne_zero _).symm
  | ok made =>
      have hsame := Chain.blocks_of_ofBlocks hmade
      subst hsame
      refine ⟨_, h.load_tipMismatch hs hmade (fun htip => hother ?_) p⟩
      rw [hrebuilt.eq_of_tipDigest hmade hlength.symm hwithin hs.within hapart htip]

end Load

/-! ### Saving one state after another -/

/-- Save states one after another. -/
def saveAll (archive : Archive) (states : List NodeState) : Except ArchiveError Archive :=
  states.foldlM save archive

/-- The blocks that are stored after states were saved into an archive that was empty. -/
def laidBy (states : List NodeState) : List Block :=
  states.foldl (fun stored s => laid stored s.chain.blocks) []

/-- States that may be saved into one archive: all within the limits of the format, none longer
than a word can count, and all their blocks told apart by their digests. -/
structure StorableAll (states : List NodeState) : Prop where
  within : ∀ s ∈ states, ∀ block ∈ s.chain.blocks, block.WithinLimits
  pending : ∀ s ∈ states, ∀ tx ∈ s.pool.pending, tx.WithinLimits
  few : ∀ s ∈ states, s.chain.height < 2 ^ 64
  apart : ∀ s ∈ states, ∀ t ∈ states, ∀ block ∈ s.chain.blocks, ∀ other ∈ t.chain.blocks,
    Sha256.TellsApart block.encode other.encode

variable {states : List NodeState}

theorem saveAll_concat {archive middle : Archive} (h : archive.saveAll states = .ok middle)
    (s : NodeState) : archive.saveAll (states ++ [s]) = middle.save s := by
  rw [saveAll] at h ⊢
  rw [List.foldlM_append, h]
  exact bind_pure (middle.save s)

theorem laidBy_concat (states : List NodeState) (s : NodeState) :
    laidBy (states ++ [s]) = laid (laidBy states) s.chain.blocks := by
  rw [laidBy, List.foldl_append]
  rfl

theorem mem_of_mem_laid {stored blocks : List Block} {block : Block}
    (h : block ∈ laid stored blocks) : block ∈ stored ∨ block ∈ blocks := by
  rw [laid] at h
  split at h
  · exact Or.inr h
  · exact (List.mem_append.mp h).imp_right List.mem_of_mem_drop

/-- Nothing is stored but blocks of the states. -/
theorem mem_of_mem_laidBy {block : Block} (h : block ∈ laidBy states) :
    ∃ s ∈ states, block ∈ s.chain.blocks := by
  induction states using List.reverseRecOn with
  | nil => exact absurd h List.not_mem_nil
  | append_singleton front s ih =>
      rw [laidBy_concat] at h
      rcases mem_of_mem_laid h with hold | hnew
      · obtain ⟨t, ht, hblock⟩ := ih hold
        exact ⟨t, List.mem_append_left _ ht, hblock⟩
      · exact ⟨s, List.mem_append_right _ (List.mem_singleton_self s), hnew⟩

/-- As many blocks are stored as the last chain has. -/
theorem length_laidBy_concat (states : List NodeState) (s : NodeState) :
    (laidBy (states ++ [s])).length = s.chain.height := by
  rw [laidBy_concat, length_laid, Chain.length_blocks]

theorem StorableAll.storable_laidBy (h : StorableAll states) : Storable (laidBy states) where
  within := by
    intro block hblock
    obtain ⟨s, hs, hin⟩ := mem_of_mem_laidBy hblock
    exact h.within s hs block hin
  apart := by
    intro block hblock other hother
    obtain ⟨s, hs, hin⟩ := mem_of_mem_laidBy hblock
    obtain ⟨t, ht, hout⟩ := mem_of_mem_laidBy hother
    exact h.apart s hs t ht block hin other hout
  few := by
    rcases List.eq_nil_or_concat states with rfl | ⟨front, s, hconcat⟩
    · exact Nat.two_pow_pos 64
    · rw [hconcat, List.concat_eq_append, length_laidBy_concat]
      exact h.few s (by simp [hconcat])

theorem StorableAll.front {s : NodeState} (h : StorableAll (states ++ [s])) :
    StorableAll states where
  within := fun t ht => h.within t (List.mem_append_left _ ht)
  pending := fun t ht => h.pending t (List.mem_append_left _ ht)
  few := fun t ht => h.few t (List.mem_append_left _ ht)
  apart := fun t ht u hu =>
    h.apart t (List.mem_append_left _ ht) u (List.mem_append_left _ hu)

/-- **Every sequence of saves goes through**, and the archive holds what was laid by them. -/
theorem StorableAll.saveAll (h : StorableAll states) :
    ∃ archive, empty.saveAll states = .ok archive ∧ archive.Holds (laidBy states) := by
  induction states using List.reverseRecOn with
  | nil => exact ⟨empty, rfl, holds_empty⟩
  | append_singleton front s ih =>
      obtain ⟨middle, hfront, hholds⟩ := ih h.front
      have hlaid := h.storable_laidBy
      rw [laidBy_concat] at hlaid
      obtain ⟨saved, hsave, hcarries⟩ := hholds.save_laid hlaid
      refine ⟨saved, (saveAll_concat hfront s).trans hsave, ?_⟩
      rw [laidBy_concat]
      exact hcarries.holds

/-- The last save leaves its own tip and waiting transactions behind. -/
theorem StorableAll.saveAll_last {last : NodeState} (h : StorableAll (states ++ [last])) :
    ∃ saved, empty.saveAll (states ++ [last]) = .ok saved ∧
      saved.Carries (laidBy (states ++ [last])) last.chain.tipDigest last.pool.pending := by
  have hlaid := h.storable_laidBy
  rw [laidBy_concat] at hlaid ⊢
  obtain ⟨middle, hfront, hholds⟩ := h.front.saveAll
  obtain ⟨saved, hsave, hcarries⟩ := hholds.save_laid hlaid
  exact ⟨saved, (saveAll_concat hfront last).trans hsave, hcarries⟩

theorem StorableAll.toldApart {last : NodeState} (h : StorableAll (states ++ [last])) :
    ToldApart last.chain.blocks (laidBy (states ++ [last])) := by
  rintro ⟨block, other⟩ hpair
  obtain ⟨hblock, hother⟩ := List.of_mem_zip hpair
  obtain ⟨s, hs, hin⟩ := mem_of_mem_laidBy hother
  exact h.apart last (by simp) s hs block hblock other hin

/-! ### Forks -/

/-- A block on genesis. -/
def forkBlock (timestamp : UInt64) : Block := .candidate .zero [] 0 timestamp Block.genesis.digest

/-- A node that has it. -/
def fork (timestamp : UInt64) : NodeState :=
  .ofParts (Chain.start.push (forkBlock timestamp)) .empty {}

theorem rebuilt_fork (timestamp : UInt64) : (fork timestamp).chain.Rebuilt :=
  Chain.rebuilt_start.push rfl

theorem blocks_fork (timestamp : UInt64) :
    (fork timestamp).chain.blocks = [.genesis, forkBlock timestamp] := by
  rw [fork, NodeState.ofParts, Chain.blocks_push, Chain.blocks_start]
  rfl

theorem nodup_forks : ([Block.genesis, forkBlock 1, forkBlock 2].map (·.digest)).Nodup := by
  decide +kernel

theorem storableAll_forks (h : ∀ s ∈ states, s = fork 1 ∨ s = fork 2) : StorableAll states := by
  have hblocks : ∀ s ∈ states, ∀ block ∈ s.chain.blocks,
      block ∈ [Block.genesis, forkBlock 1, forkBlock 2] := by
    intro s hs block hblock
    rcases h s hs with rfl | rfl
    all_goals
      rw [blocks_fork] at hblock
      simp only [List.mem_cons, List.not_mem_nil, or_false] at hblock ⊢
      tauto
  have hwithin : ∀ block ∈ [Block.genesis, forkBlock 1, forkBlock 2], block.WithinLimits := by
    decide
  refine ⟨fun s hs block hblock => hwithin block (hblocks s hs block hblock), ?_, ?_, ?_⟩
  · intro s hs
    rcases h s hs with rfl | rfl <;> exact nofun
  · intro s hs
    rcases h s hs with rfl | rfl <;> exact (by decide : 2 < 2 ^ 64)
  · intro s hs t ht block hblock other hother hdigest
    exact congrArg Block.encode (List.inj_on_of_nodup_map nodup_forks (hblocks s hs block hblock)
      (hblocks t ht other hother) hdigest)

/-! ### What a sequence of saves gives back -/

/-- **After any sequence of saves the last chain loads if it was shorter than what was stored, or
went on from it, and otherwise nothing does.** -/
theorem load_saveAll {last : NodeState} (hs : StorableAll (states ++ [last]))
    (hrebuilt : last.chain.Rebuilt) :
    ∃ archive, empty.saveAll (states ++ [last]) = .ok archive ∧
      ∀ p : Params,
        (last.chain.height < (laidBy states).length ∨ laidBy states <+: last.chain.blocks →
          archive.LoadsChain p last.chain) ∧
        (¬(last.chain.height < (laidBy states).length ∨ laidBy states <+: last.chain.blocks) →
          ∃ e, archive.load p = .error (.integrity e)) := by
  have hlast : last ∈ states ++ [last] := List.mem_append_right _ (List.mem_singleton_self last)
  have hlaid := hs.storable_laidBy
  have happart := hs.toldApart
  obtain ⟨saved, hsave, hcarries⟩ := hs.saveAll_last
  rw [laidBy_concat] at hlaid happart hcarries
  refine ⟨saved, hsave, fun p => ?_⟩
  rw [← last.chain.length_blocks, ← laid_eq_iff]
  refine ⟨fun heq => ?_, fun hne => ?_⟩
  · rw [heq] at hlaid hcarries
    exact hcarries.load_chain hlaid (hs.pending last hlast) hrebuilt rfl p
  · exact hcarries.load_other hlaid (length_laid _ _) hne hrebuilt (hs.within last hlast) happart p

/-- The fork that was stored first is the one whose chain still loads. -/
theorem load_saveAll_first_fork :
    ∃ archive, empty.saveAll [fork 1, fork 2, fork 1] = .ok archive ∧
      archive.LoadsChain {} (fork 1).chain := by
  have hs : StorableAll ([fork 1, fork 2] ++ [fork 1]) := storableAll_forks (by simp)
  obtain ⟨archive, hsave, hload⟩ := load_saveAll hs (rebuilt_fork 1)
  refine ⟨archive, hsave, (hload {}).1 (Or.inr ?_)⟩
  show laid (laid [] (fork 1).chain.blocks) (fork 2).chain.blocks <+: _
  rw [blocks_fork, blocks_fork]
  exact List.prefix_rfl

/-- A fork that is saved over another of the same length does not load, and nor does the other. -/
theorem fork_over_fork :
    StorableAll [fork 1, fork 2] ∧ (fork 1).chain.Rebuilt ∧ (fork 2).chain.Rebuilt ∧
      ∃ archive, empty.saveAll [fork 1, fork 2] = .ok archive ∧
        ¬∃ s, archive.load {} = .ok (some s) ∧ s.chain.blocks = (fork 2).chain.blocks := by
  have hs : StorableAll ([fork 1] ++ [fork 2]) := storableAll_forks (by simp)
  obtain ⟨saved, hsave, hcarries⟩ := hs.saveAll_last
  have hfirst : laidBy ([fork 1] ++ [fork 2]) = (fork 1).chain.blocks := by
    show laid (laid [] (fork 1).chain.blocks) (fork 2).chain.blocks = _
    rw [blocks_fork, blocks_fork]
    rfl
  have hlaid := hs.storable_laidBy
  rw [hfirst] at hlaid hcarries
  refine ⟨hs, rebuilt_fork 1, rebuilt_fork 2, saved, hsave, ?_⟩
  have htip : (fork 2).chain.tipDigest ≠ (fork 1).chain.tipDigest := by
    have hdistinct := nodup_forks
    simp only [List.map_cons, List.nodup_cons, List.mem_cons] at hdistinct
    exact fun h => hdistinct.2.1 (Or.inl h.symm)
  rw [hcarries.load_tipMismatch hlaid (rebuilt_fork 1) htip]
  simp

end Archive

end AttestedLedger
