/-
What a save gives back.

Reading an archive that keeps a state finds every block under its height and every waiting
transaction under its digest.  The chain is rebuilt from its blocks, so it is the very
chain that was saved.  The pool is filled by submitting what was waiting, in the order of
the digests: none of it is in the chain and no two are the same, so all of it waits again,
and nothing of it is being mined any more.  `Keeps.load` is the result.
-/
import AttestedLedger.Proofs.Archive.Save
import AttestedLedger.Proofs.Ledger.Rebuild
import AttestedLedger.Proofs.Ledger.Upkeep

namespace AttestedLedger

namespace Archive

/-! ### The chain -/

section Blocks

variable {archive : Archive} {blocks : List Block}

theorem readDigest_bytes (digest : Digest) : readDigest digest.bytes = .ok digest := by
  rw [readDigest, Digest.ofBytes, dif_pos digest.length_eq]

theorem Filed.digestAt? (h : Filed archive.chain blocks) {height : Nat} {block : Block}
    (hblock : blocks[height]? = some block) :
    archive.digestAt? height = .ok (some block.digest) := by
  rw [Archive.digestAt?, h.byHeight height block hblock]
  dsimp only
  rw [readDigest_bytes]
  rfl

/-- What stands under a digest is read back if the format can carry it. -/
theorem block?_of_record {digest : Digest} {block : Block}
    (h : archive.chain[blockKey digest]? = some block.encode) (hwithin : block.WithinLimits) :
    archive.block? digest = .ok (some block) := by
  rw [block?, h]
  dsimp only
  rw [(Block.exactCodec.readsBack block).mpr hwithin]

theorem Filed.block? (h : Filed archive.chain blocks) (hs : Storable blocks) {block : Block}
    (hin : block ∈ blocks) : archive.block? block.digest = .ok (some block) :=
  block?_of_record (h.byDigest block hin) (hs.within block hin)

theorem Filed.blockAt? (h : Filed archive.chain blocks) (hs : Storable blocks) {height : Nat}
    {block : Block} (hblock : blocks[height]? = some block) :
    archive.blockAt? height = .ok (some block) := by
  rw [Archive.blockAt?, h.digestAt? hblock]
  exact h.block? hs (List.mem_of_getElem? hblock)

theorem Filed.blocksFrom (h : Filed archive.chain blocks) (hs : Storable blocks) :
    ∀ (rest front : List Block), front ++ rest = blocks →
      archive.blocksFrom front.length rest.length = .ok rest := by
  intro rest
  induction rest with
  | nil => intro front _; rfl
  | cons block rest ih =>
      intro front hsplit
      have hblock : blocks[front.length]? = some block := by
        rw [← hsplit, List.getElem?_append_right (Nat.le_refl _), Nat.sub_self, List.getElem?_cons_zero]
      have hnext := ih (front ++ [block]) ((List.append_cons front block rest).symm.trans hsplit)
      rw [List.length_append, List.length_singleton] at hnext
      rw [List.length_cons, Archive.blocksFrom, h.blockAt? hs hblock]
      dsimp only
      rw [hnext]
      rfl

theorem Holds.blocks_eq (h : archive.Holds blocks) (hs : Storable blocks) :
    archive.blocks = .ok blocks := by
  rw [Archive.blocks, h.count]
  exact h.filed.blocksFrom hs blocks [] rfl

theorem load_empty (p : Params) : empty.load p = .ok none := by
  have hnone : empty.blocks = .ok [] := by
    rw [Archive.blocks, holds_empty.count]
    rfl
  rw [load, hnone]
  rfl

/-- A chain that its blocks rebuild passes every check on the way back. -/
theorem loadChain_of_rebuilt {chain : Chain} (h : chain.Rebuilt)
    (htip : archive.chain[tipKey]? = some chain.tipDigest.bytes) :
    archive.loadChain chain.blocks = .ok chain := by
  have hread : archive.tip? = .ok (some chain.tipDigest) := by
    rw [tip?, htip]
    dsimp only
    rw [readDigest_bytes]
    rfl
  rw [loadChain, show Chain.ofBlocks chain.blocks = .ok chain from h]
  dsimp only
  rw [h.verifyIntegrity]
  dsimp only
  rw [hread]
  dsimp only
  rw [if_pos rfl]

end Blocks

/-! ### The pool -/

/-- The record of a waiting transaction. -/
def poolEntry (tx : Transaction) : Bytes × Bytes := (tx.digest.bytes, tx.encode)

theorem digest_bytes_inj {digest other : Digest} : digest.bytes = other.bytes ↔ digest = other := by
  rw [Digest.mk.injEq]

/-- Records put under keys that are new and distinct are all there, beside the old ones. -/
theorem toList_putAll :
    ∀ (transactions : List Transaction) (records : Records),
      (transactions.map (·.digest)).Nodup →
      (∀ tx ∈ transactions, records[tx.digest.bytes]? = none) →
      (transactions.foldl (fun records tx => records.insert tx.digest.bytes tx.encode)
        records).toList.Perm (transactions.map poolEntry ++ records.toList) := by
  intro transactions
  induction transactions with
  | nil => intro records _ _; exact .refl _
  | cons tx rest ih =>
      intro records hdistinct hnew
      rw [List.map_cons, List.nodup_cons] at hdistinct
      have hother : ∀ t ∈ rest, tx.digest.bytes ≠ t.digest.bytes := by
        intro t ht hc
        exact hdistinct.1 (digest_bytes_inj.mp hc ▸ List.mem_map_of_mem ht)
      have hkept : records.toList.filter (fun entry => decide ¬(tx.digest.bytes == entry.1) = true) =
          records.toList := by
        refine List.filter_eq_self.mpr fun entry hentry => ?_
        rw [decide_eq_true_eq, beq_iff_eq]
        intro hc
        have hfound := Std.TreeMap.mem_toList_iff_getElem?_eq_some.mp hentry
        rw [← hc, hnew tx List.mem_cons_self] at hfound
        exact absurd hfound (by simp)
      have hput := Std.TreeMap.toList_insert_perm (t := records) (k := tx.digest.bytes)
        (v := tx.encode)
      rw [hkept] at hput
      have hrest := ih (records.insert tx.digest.bytes tx.encode) hdistinct.2 fun t ht => by
        rw [Records.getElem?_put, if_neg (hother t ht)]
        exact hnew t (List.mem_cons_of_mem tx ht)
      exact hrest.trans ((hput.append_left _).trans List.perm_middle)

theorem toList_poolRecords {transactions : List Transaction}
    (h : (transactions.map (·.digest)).Nodup) :
    (poolRecords transactions).toList.Perm (transactions.map poolEntry) := by
  have hall := toList_putAll transactions ∅ h fun tx _ => Std.TreeMap.getElem?_emptyc
  rwa [show (∅ : Records).toList = [] from rfl, List.append_nil] at hall

theorem readPool_map :
    ∀ (transactions : List Transaction), (∀ tx ∈ transactions, tx.WithinLimits) →
      readPool (transactions.map poolEntry) = .ok transactions := by
  intro transactions
  induction transactions with
  | nil => intro _; rfl
  | cons tx rest ih =>
      intro h
      rw [List.map_cons, poolEntry, readPool,
        (Transaction.exactCodec.readsBack tx).mpr (h tx List.mem_cons_self)]
      dsimp only
      rw [if_pos rfl, ih fun t ht => h t (List.mem_cons_of_mem tx ht)]
      rfl

/-- The waiting transactions come back in the order of their digests. -/
theorem transactions_eq {archive : Archive} {transactions : List Transaction}
    (hpool : archive.pool = poolRecords transactions)
    (hdistinct : (transactions.map (·.digest)).Nodup)
    (hwithin : ∀ tx ∈ transactions, tx.WithinLimits) :
    ∃ restored : List Transaction, archive.transactions = .ok restored ∧
      restored.Perm transactions := by
  have hsorted := toList_poolRecords hdistinct
  rw [← hpool] at hsorted
  -- records in another order are the records of the transactions in another order
  have hmap := congrFun (congrFun (List.eq_map_comp_perm poolEntry) archive.pool.toList) transactions
  obtain ⟨restored, hentries, hperm⟩ := hmap.mpr hsorted
  refine ⟨restored, ?_, hperm⟩
  rw [Archive.transactions, hentries]
  exact readPool_map restored fun tx htx => hwithin tx (hperm.mem_iff.mp htx)

end Archive

/-! ### Waiting again -/

namespace NodeState

/-- What is new to pool and chain is added, and nothing else changes. -/
theorem submit_new {s : NodeState} {tx : Transaction}
    (hfinal : s.chain.isFinalized tx.digest = false) (hnone : s.pool.status? tx.digest = none) :
    (s.submit tx).1 = { s with
      pool := ⟨s.pool.pending ++ [tx], s.pool.status.insert tx.digest .unmined⟩ } := by
  rcases submit_cases s tx with ⟨hdone, -⟩ | ⟨status, hstatus, -⟩ | ⟨-, -, heq⟩
  · rw [hfinal] at hdone
    exact absurd hdone Bool.false_ne_true
  · rw [hnone] at hstatus
    exact absurd hstatus (by simp)
  · rw [heq]

/-- Distinct transactions that are new to pool and chain are all added. -/
theorem submitAll_new :
    ∀ (transactions : List Transaction) {s : NodeState}, (transactions.map (·.digest)).Nodup →
      (∀ tx ∈ transactions, s.chain.isFinalized tx.digest = false) →
      (∀ tx ∈ transactions, s.pool.status? tx.digest = none) →
      (s.submitAll transactions).chain = s.chain ∧
      (s.submitAll transactions).pool.pending = s.pool.pending ++ transactions ∧
      ∀ digest, (s.submitAll transactions).pool.status? digest =
        if digest ∈ transactions.map (·.digest) then some .unmined else s.pool.status? digest := by
  intro transactions
  induction transactions with
  | nil => intro s _ _ _; simp [submitAll]
  | cons tx rest ih =>
      intro s hdistinct hfinal hnone
      rw [List.map_cons, List.nodup_cons] at hdistinct
      have hstatus : ∀ digest, (s.submit tx).1.pool.status? digest =
          if tx.digest = digest then some .unmined else s.pool.status? digest := by
        intro digest
        rw [submit_new (hfinal tx List.mem_cons_self) (hnone tx List.mem_cons_self)]
        exact Pool.status?_reinstateOne s.pool tx digest
      have hchain := (sameLedger_submit s tx).chain
      obtain ⟨hkept, hpending, hstatuses⟩ := ih (s := (s.submit tx).1) hdistinct.2
        (fun t ht => by rw [hchain]; exact hfinal t (List.mem_cons_of_mem tx ht))
        (fun t ht => by
          have hne : tx.digest ≠ t.digest := fun hc => hdistinct.1 (hc ▸ List.mem_map_of_mem ht)
          rw [hstatus, if_neg hne]
          exact hnone t (List.mem_cons_of_mem tx ht))
      refine ⟨hkept.trans hchain, ?_, fun digest => ?_⟩
      · refine hpending.trans ?_
        rw [submit_new (hfinal tx List.mem_cons_self) (hnone tx List.mem_cons_self),
          List.append_assoc, List.singleton_append]
      · refine (hstatuses digest).trans ?_
        rw [hstatus]
        by_cases hrest : digest ∈ rest.map (·.digest)
        · rw [if_pos hrest, if_pos (Pool.mem_digests_cons.mpr (Or.inr hrest))]
        by_cases htx : digest = tx.digest
        · rw [if_neg hrest, if_pos htx.symm, if_pos (Pool.mem_digests_cons.mpr (Or.inl htx))]
        · rw [if_neg hrest, if_neg (Ne.symm htx),
            if_neg fun h => (Pool.mem_digests_cons.mp h).elim htx hrest]

/-- What a restored state has of the state that was saved. -/
structure Restores (restored saved : NodeState) : Prop where
  /-- The same chain: its blocks, the digest of its tip, its miners and its finalized
  transactions. -/
  chain : restored.chain = saved.chain
  /-- The same transactions wait. -/
  pending : restored.pool.pending.Perm saved.pool.pending
  /-- None of them waits twice. -/
  distinct : restored.pool.digests.Nodup
  /-- Exactly these have a status, and it is that of a transaction no search has taken up. -/
  unmined : ∀ digest, restored.pool.status? digest =
    if digest ∈ saved.pool.digests then some .unmined else none

end NodeState

/-- **What an archive keeps of a state is read back, whatever the parameters are now.** -/
theorem Archive.Keeps.load {archive : Archive} {s : NodeState} (h : archive.Keeps s)
    (hs : s.Storable) (hrebuilt : s.chain.Rebuilt) {taken : List Transaction}
    (htidy : s.Tidy taken) (p : Params) :
    ∃ restored, archive.load p = .ok (some restored) ∧ restored.Restores s := by
  obtain ⟨transactions, hread, hperm⟩ := transactions_eq h.pool htidy.orderly.distinct hs.pending
  have hdigests : (transactions.map (·.digest)).Perm s.pool.digests := hperm.map _
  have hdistinct := hdigests.nodup_iff.mpr htidy.orderly.distinct
  obtain ⟨hchain, hpending, hstatus⟩ := NodeState.submitAll_new transactions
    (s := .ofParts s.chain .empty p) hdistinct
    (fun tx htx => htidy.fresh tx (hperm.mem_iff.mp htx))
    (fun tx _ => by simp [NodeState.ofParts, Pool.status?, Pool.empty])
  refine ⟨(NodeState.ofParts s.chain .empty p).submitAll transactions, ?_, hchain, ?_, ?_, ?_⟩
  · obtain ⟨rest, hblocks, -⟩ := Chain.ofBlocks_eq_ok.mp hrebuilt
    have hload := loadChain_of_rebuilt hrebuilt h.tip
    rw [hblocks] at hload
    rw [Archive.load, h.holds.blocks_eq hs.blocks, hblocks]
    simp only [bind, Except.bind, pure, Except.pure, hload, hread]
  · rw [hpending]
    exact hperm
  · rw [Pool.digests, hpending]
    exact hdistinct
  · intro digest
    rw [hstatus digest]
    exact if_congr hdigests.mem_iff rfl (by simp [NodeState.ofParts, Pool.status?, Pool.empty])

end AttestedLedger
