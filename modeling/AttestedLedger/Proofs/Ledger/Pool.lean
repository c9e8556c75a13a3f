/-
What the operations of a pool do to its entries and statuses.

The statuses are read through `status?`: there is one equation for each operation, which
says what the operation does to the status of every digest.  The entries are read as a
list up to order, since a pool's order means nothing: `sweep_perm` says that pruning
leaves exactly the entries that are not gone.

`Pool.Orderly` is what holds of a pool whenever nobody is at work on it: entries have
distinct digests, exactly the entries have a status, and no status says that a transaction
is in the chain.  Every operation a node performs on its pool keeps it.
-/
import AttestedLedger.Ledger.Pool
import Mathlib.Data.List.Nodup
import Mathlib.Data.List.Perm.Basic

namespace AttestedLedger.Pool

/-- The digests of the waiting transactions. -/
def digests (pool : Pool) : List Digest := pool.pending.map (·.digest)

theorem digest_mem_digests {pool : Pool} {tx : Transaction} (h : tx ∈ pool.pending) :
    tx.digest ∈ pool.digests :=
  List.mem_map_of_mem h

/-! ### Sweeping -/

theorem getLast_cons_dropLast_perm {α : Type} (entries : List α) (h : entries ≠ []) :
    (entries.getLast h :: entries.dropLast).Perm entries := by
  have hback : (entries.dropLast ++ [entries.getLast h]).Perm entries := by
    rw [List.dropLast_append_getLast h]
  exact (List.perm_append_singleton _ _).symm.trans hback

theorem sweep_cons_of_stays {α : Type} {gone : α → Bool} {x : α} (h : gone x = false)
    (rest : List α) : sweep gone (x :: rest) = x :: sweep gone rest := by
  rw [sweep.eq_def]
  simp only [h, Bool.false_eq_true, if_false]

/-- The last entry fills the gap and is looked at next. -/
theorem sweep_cons_of_gone {α : Type} {gone : α → Bool} {x : α} (h : gone x = true)
    (rest : List α) (hrest : rest ≠ []) :
    sweep gone (x :: rest) = sweep gone (rest.getLast hrest :: rest.dropLast) := by
  cases rest with
  | nil => exact absurd rfl hrest
  | cons y more =>
      rw [sweep.eq_def]
      simp only [h, if_true]

/-- **Sweeping leaves exactly the entries that are not gone**, in some order. -/
theorem sweep_perm {α : Type} (gone : α → Bool) (entries : List α) :
    (sweep gone entries).Perm (entries.filter fun x => !gone x) := by
  induction entries using sweep.induct gone with
  | case1 => rw [sweep, List.filter_nil]
  | case2 x hx =>
      rw [sweep, if_pos hx, List.filter_cons_of_neg (by rw [hx]; decide), List.filter_nil]
  | case3 x hx y more ih =>
      have hrest : y :: more ≠ [] := List.cons_ne_nil y more
      rw [sweep_cons_of_gone hx _ hrest, List.filter_cons_of_neg (by rw [hx]; decide)]
      exact ih.trans ((getLast_cons_dropLast_perm (y :: more) hrest).filter _)
  | case4 x rest hx ih =>
      have hstays : gone x = false := Bool.eq_false_iff.mpr hx
      rw [sweep_cons_of_stays hstays, List.filter_cons_of_pos (by rw [hstays]; rfl)]
      exact ih.cons x

/-- Nothing moves when nothing is gone. -/
theorem sweep_eq_self {α : Type} {gone : α → Bool} :
    ∀ entries : List α, (∀ x ∈ entries, gone x = false) → sweep gone entries = entries := by
  intro entries
  induction entries with
  | nil => intro _; rw [sweep]
  | cons x rest ih =>
      intro h
      rw [sweep_cons_of_stays (h x List.mem_cons_self),
        ih fun y hy => h y (List.mem_cons_of_mem x hy)]

/-! ### The status of every digest after an operation -/

theorem mem_status_iff {pool : Pool} {digest : Digest} :
    digest ∈ pool.status ↔ (pool.status? digest).isSome = true :=
  Std.HashMap.mem_iff_isSome_getElem?

theorem status?_prune (pool : Pool) (digest : Digest) :
    pool.prune.status? digest =
      if pool.status? digest = some .mined then none else pool.status? digest := by
  show (pool.status.filter fun _ status => status != .mined)[digest]? = _
  rw [Std.HashMap.getElem?_filter']
  show (pool.status? digest).filter (fun status => status != .mined) = _
  cases pool.status? digest with
  | none => rfl
  | some status => cases status <;> rfl

theorem isMined_iff {pool : Pool} {tx : Transaction} :
    pool.isMined tx = true ↔ pool.status? tx.digest = some .mined :=
  beq_iff_eq

/-- Pruning leaves the entries that are not in the chain, in some order. -/
theorem pending_prune_perm (pool : Pool) :
    pool.prune.pending.Perm
      (pool.pending.filter fun tx => decide (pool.status? tx.digest ≠ some .mined)) := by
  have hstays : ∀ tx, (!pool.isMined tx) = decide (pool.status? tx.digest ≠ some .mined) := by
    intro tx
    rw [Bool.eq_iff_iff, Bool.not_eq_true', decide_eq_true_iff, ← Bool.not_eq_true, isMined_iff]
  have hperm := sweep_perm pool.isMined pool.pending
  rwa [List.filter_congr fun tx _ => hstays tx] at hperm

/-- Pruning finds nothing to do in a pool without transactions of the chain. -/
theorem pending_prune_of_unmined {pool : Pool}
    (h : ∀ digest, pool.status? digest ≠ some .mined) : pool.prune.pending = pool.pending :=
  sweep_eq_self pool.pending fun tx _ =>
    Bool.eq_false_iff.mpr fun hmined => h tx.digest (isMined_iff.mp hmined)

/-- Pruning adds nothing. -/
theorem mem_pending_of_mem_prune {pool : Pool} {tx : Transaction} (h : tx ∈ pool.prune.pending) :
    tx ∈ pool.pending :=
  (List.mem_filter.mp (pool.pending_prune_perm.mem_iff.mp h)).1

theorem mem_digests_cons {digest : Digest} {tx : Transaction} {rest : List Transaction} :
    digest ∈ (tx :: rest).map (·.digest) ↔ digest = tx.digest ∨ digest ∈ rest.map (·.digest) := by
  rw [List.map_cons, List.mem_cons]

theorem status?_markMined (pool : Pool) (digest : Digest) (transactions : List Transaction) :
    (pool.markMined transactions).status? digest =
      if digest ∈ transactions.map (·.digest) then some .mined else pool.status? digest := by
  have hfold : ∀ (l : List Transaction) (statuses : Std.HashMap Digest TxStatus),
      (l.foldl (fun statuses tx => statuses.insert tx.digest TxStatus.mined) statuses)[digest]? =
        if digest ∈ l.map (·.digest) then some .mined else statuses[digest]? := by
    intro l
    induction l with
    | nil => intro statuses; rfl
    | cons tx rest ih =>
        intro statuses
        rw [List.foldl_cons, ih, Std.HashMap.getElem?_insert]
        by_cases hrest : digest ∈ rest.map (·.digest)
        · rw [if_pos hrest, if_pos (mem_digests_cons.mpr (Or.inr hrest))]
        by_cases htx : digest = tx.digest
        · rw [if_neg hrest, if_pos (mem_digests_cons.mpr (Or.inl htx)),
            if_pos (beq_iff_eq.mpr htx.symm)]
        · rw [if_neg hrest, if_neg fun h => (mem_digests_cons.mp h).elim htx hrest,
            if_neg fun h => htx (beq_iff_eq.mp h).symm]
  exact hfold transactions pool.status

theorem markedMining_markedMining (status : Option TxStatus) :
    markedMining (some (markedMining status)) = markedMining status := by
  rcases status with _ | status
  · rfl
  · cases status <;> rfl

theorem status?_markMining (pool : Pool) (digest : Digest) (transactions : List Transaction) :
    (pool.markMining transactions).status? digest =
      if digest ∈ transactions.map (·.digest) then some (markedMining (pool.status? digest))
      else pool.status? digest := by
  have hfold : ∀ (l : List Transaction) (statuses : Std.HashMap Digest TxStatus),
      (l.foldl (fun statuses tx =>
          statuses.insert tx.digest (markedMining statuses[tx.digest]?)) statuses)[digest]? =
        if digest ∈ l.map (·.digest) then some (markedMining statuses[digest]?)
        else statuses[digest]? := by
    intro l
    induction l with
    | nil => intro statuses; rfl
    | cons tx rest ih =>
        intro statuses
        rw [List.foldl_cons, ih, Std.HashMap.getElem?_insert]
        by_cases htx : digest = tx.digest
        · -- marking twice is marking once
          rw [if_pos (beq_iff_eq.mpr htx.symm), if_pos (mem_digests_cons.mpr (Or.inl htx)), ← htx,
            markedMining_markedMining]
          split <;> rfl
        · rw [if_neg fun h => htx (beq_iff_eq.mp h).symm]
          by_cases hrest : digest ∈ rest.map (·.digest)
          · rw [if_pos hrest, if_pos (mem_digests_cons.mpr (Or.inr hrest))]
          · rw [if_neg hrest, if_neg fun h => (mem_digests_cons.mp h).elim htx hrest]
  exact hfold transactions pool.status

theorem status?_release (pool : Pool) (digest : Digest) (transactions : List Transaction) :
    (pool.release transactions).status? digest =
      if digest ∈ transactions.map (·.digest) ∧ pool.status? digest = some .mining
      then some .unmined
      else pool.status? digest := by
  have hfold : ∀ (l : List Transaction) (statuses : Std.HashMap Digest TxStatus),
      (l.foldl (fun statuses tx => if statuses[tx.digest]? = some TxStatus.mining
          then statuses.insert tx.digest TxStatus.unmined else statuses) statuses)[digest]? =
        if digest ∈ l.map (·.digest) ∧ statuses[digest]? = some .mining then some .unmined
        else statuses[digest]? := by
    intro l
    induction l with
    | nil => intro statuses; rw [List.foldl_nil, if_neg fun h => List.not_mem_nil h.1]
    | cons tx rest ih =>
        intro statuses
        rw [List.foldl_cons, ih]
        by_cases htx : digest = tx.digest
        · by_cases hmining : statuses[tx.digest]? = some TxStatus.mining
          · rw [if_pos hmining, Std.HashMap.getElem?_insert, if_pos (beq_iff_eq.mpr htx.symm),
              if_neg fun h => by simp at h,
              if_pos ⟨mem_digests_cons.mpr (Or.inl htx), htx ▸ hmining⟩]
          · rw [if_neg hmining, if_neg fun h => hmining (htx ▸ h.2),
              if_neg fun h => hmining (htx ▸ h.2)]
        · -- the step leaves this digest's status alone
          have hstep : (if statuses[tx.digest]? = some TxStatus.mining
              then statuses.insert tx.digest TxStatus.unmined else statuses)[digest]?
                = statuses[digest]? := by
            split
            · rw [Std.HashMap.getElem?_insert, if_neg fun h => htx (beq_iff_eq.mp h).symm]
            · rfl
          rw [hstep]
          simp only [mem_digests_cons, htx, false_or]
  exact hfold transactions pool.status

theorem status?_reinstateOne (pool : Pool) (tx : Transaction) (digest : Digest) :
    (pool.reinstateOne tx).status? digest =
      if tx.digest = digest then some .unmined else pool.status? digest := by
  show (pool.status.insert tx.digest TxStatus.unmined)[digest]? = _
  rw [Std.HashMap.getElem?_insert]
  by_cases htx : tx.digest = digest
  · rw [if_pos htx, if_pos (beq_iff_eq.mpr htx)]
  · rw [if_neg htx, if_neg fun h => htx (beq_iff_eq.mp h)]
    rfl

theorem mem_digests_reinstateOne {pool : Pool} {tx : Transaction} {digest : Digest} :
    digest ∈ (pool.reinstateOne tx).digests ↔ digest ∈ pool.digests ∨ digest = tx.digest := by
  rw [digests, reinstateOne]
  by_cases hin : tx.digest ∈ pool.digests
  · have hany : pool.pending.any (·.digest == tx.digest) = true := by
      obtain ⟨t, ht, hdigest⟩ := List.mem_map.mp hin
      exact List.any_eq_true.mpr ⟨t, ht, beq_iff_eq.mpr hdigest⟩
    rw [hany, if_pos rfl]
    exact ⟨Or.inl, fun hor => hor.elim id fun heq => heq ▸ hin⟩
  · have hany : pool.pending.any (·.digest == tx.digest) = false := by
      rw [List.any_eq_false]
      intro t ht hdigest
      exact hin (beq_iff_eq.mp hdigest ▸ digest_mem_digests ht)
    rw [hany, if_neg Bool.false_ne_true, List.map_append, List.mem_append, List.map_singleton,
      List.mem_singleton]
    rfl

/-- Exactly the transactions that are not in the chain come back. -/
theorem mem_digests_reinstate (pool : Pool) (transactions : List Transaction)
    (finalized : Digest → Bool)
    (digest : Digest) :
    digest ∈ (pool.reinstate transactions finalized).digests ↔
      digest ∈ pool.digests ∨
        digest ∈ transactions.map (·.digest) ∧ finalized digest = false := by
  have hfold : ∀ (l : List Transaction) (pool : Pool),
      digest ∈ (l.foldl reinstateOne pool).digests ↔
        digest ∈ pool.digests ∨ digest ∈ l.map (·.digest) := by
    intro l
    induction l with
    | nil => intro pool; simp
    | cons tx rest ih =>
        intro pool
        rw [List.foldl_cons, ih, mem_digests_reinstateOne, mem_digests_cons, or_assoc]
  rw [reinstate, hfold, List.mem_map, List.mem_map]
  refine or_congr_right ?_
  refine ⟨?_, ?_⟩
  · intro hfound
    obtain ⟨tx, htx, rfl⟩ := hfound
    obtain ⟨hin, hout⟩ := List.mem_filter.mp htx
    exact ⟨⟨tx, hin, rfl⟩, by rwa [Bool.not_eq_true'] at hout⟩
  · intro hfound
    obtain ⟨⟨tx, hin, rfl⟩, hout⟩ := hfound
    exact ⟨tx, List.mem_filter.mpr ⟨hin, by rw [Bool.not_eq_true']; exact hout⟩, rfl⟩

/-! ### Orderly pools -/

/-- What holds of a pool whenever nobody is at work on it. -/
structure Orderly (pool : Pool) : Prop where
  distinct : pool.digests.Nodup
  tracked : ∀ digest, (pool.status? digest).isSome = true ↔ digest ∈ pool.digests
  unmined : ∀ digest, pool.status? digest ≠ some .mined

theorem orderly_empty : empty.Orderly where
  distinct := List.nodup_nil
  tracked := by
    intro digest
    simp [status?, empty, digests]
  unmined := by
    intro digest
    simp [status?, empty]

namespace Orderly

variable {pool : Pool}

/-- Without a status, a transaction does not wait. -/
theorem not_mem_of_status?_eq_none (h : pool.Orderly) {digest : Digest}
    (hnone : pool.status? digest = none) : digest ∉ pool.digests := by
  intro hmem
  have hsome := (h.tracked digest).mpr hmem
  rw [hnone] at hsome
  exact absurd hsome (by simp)

/-- Adding a transaction without a status. -/
theorem push (h : pool.Orderly) {tx : Transaction} (hnone : pool.status? tx.digest = none) :
    Orderly ⟨pool.pending ++ [tx], pool.status.insert tx.digest .unmined⟩ := by
  have hstatus : ∀ digest, (pool.status.insert tx.digest TxStatus.unmined)[digest]? =
      if tx.digest = digest then some .unmined else pool.status? digest :=
    fun digest => status?_reinstateOne pool tx digest
  refine ⟨?_, ?_, ?_⟩
  · show ((pool.pending ++ [tx]).map (·.digest)).Nodup
    rw [List.map_append, List.map_singleton]
    refine List.nodup_append.mpr ⟨h.distinct, List.nodup_singleton _, ?_⟩
    intro a ha b hb hab
    rw [List.mem_singleton] at hb
    exact h.not_mem_of_status?_eq_none hnone (hb ▸ hab ▸ ha)
  · intro digest
    show ((pool.status.insert tx.digest TxStatus.unmined)[digest]?).isSome = true ↔
      digest ∈ (pool.pending ++ [tx]).map (·.digest)
    rw [hstatus, List.map_append, List.mem_append, List.map_singleton, List.mem_singleton]
    by_cases htx : tx.digest = digest
    · rw [if_pos htx]
      exact ⟨fun _ => Or.inr htx.symm, fun _ => rfl⟩
    · rw [if_neg htx, h.tracked]
      exact ⟨Or.inl, fun hor => hor.resolve_right fun heq => htx heq.symm⟩
  · intro digest
    show (pool.status.insert tx.digest TxStatus.unmined)[digest]? ≠ some .mined
    rw [hstatus]
    split
    · simp
    · exact h.unmined digest

theorem pending_prune (h : pool.Orderly) : pool.prune.pending = pool.pending :=
  pending_prune_of_unmined h.unmined

theorem status?_prune (h : pool.Orderly) (digest : Digest) :
    pool.prune.status? digest = pool.status? digest := by
  rw [Pool.status?_prune, if_neg (h.unmined digest)]

/-- Operations that change statuses but neither entries nor which digests are tracked. -/
theorem of_same_entries (h : pool.Orderly) {other : Pool} (hpending : other.pending = pool.pending)
    (htracked : ∀ digest, (other.status? digest).isSome = (pool.status? digest).isSome)
    (hunmined : ∀ digest, other.status? digest ≠ some .mined) : other.Orderly := by
  refine ⟨?_, fun digest => ?_, hunmined⟩
  · rw [digests, hpending]
    exact h.distinct
  · rw [htracked, h.tracked, digests, digests, hpending]

theorem prune (h : pool.Orderly) : pool.prune.Orderly :=
  h.of_same_entries h.pending_prune (fun digest => by rw [h.status?_prune]) fun digest => by
    rw [h.status?_prune]
    exact h.unmined digest

theorem markMining (h : pool.Orderly) : (pool.markMining pool.pending).Orderly := by
  refine h.of_same_entries rfl (fun digest => ?_) fun digest => ?_
  · rw [status?_markMining]
    split
    · rename_i hmem
      rw [(h.tracked digest).mpr hmem, Option.isSome_some]
    · rfl
  · rw [status?_markMining]
    have hne := h.unmined digest
    split
    · rcases hstatus : pool.status? digest with _ | status
      · simp [Pool.markedMining]
      · rw [hstatus] at hne
        cases status <;> simp_all [Pool.markedMining]
    · exact hne

theorem release (h : pool.Orderly) (transactions : List Transaction) :
    (pool.release transactions).Orderly := by
  refine h.of_same_entries rfl (fun digest => ?_) fun digest => ?_
  · rw [status?_release]
    split
    · rename_i hmining
      rw [hmining.2, Option.isSome_some, Option.isSome_some]
    · rfl
  · rw [status?_release]
    split
    · simp
    · exact h.unmined digest

/-! ### Taking the transactions of a block out of the pool -/

/-- The entries left are those whose digest is not one of the block's. -/
theorem pending_finalize_perm (h : pool.Orderly) (transactions : List Transaction) :
    (pool.markMined transactions).prune.pending.Perm
      (pool.pending.filter fun tx => decide (tx.digest ∉ transactions.map (·.digest))) := by
  have hstays : ∀ tx : Transaction,
      decide ((pool.markMined transactions).status? tx.digest ≠ some .mined) =
        decide (tx.digest ∉ transactions.map (·.digest)) := by
    intro tx
    rw [decide_eq_decide, status?_markMined]
    by_cases hmem : tx.digest ∈ transactions.map (·.digest)
    · rw [if_pos hmem]
      exact iff_of_false (fun hne => hne rfl) fun hout => hout hmem
    · rw [if_neg hmem]
      exact iff_of_true (h.unmined tx.digest) hmem
  have hperm := pending_prune_perm (pool.markMined transactions)
  rwa [List.filter_congr fun tx _ => hstays tx] at hperm

/-- What waits alone and is not in the block still waits. -/
theorem pending_finalize_singleton (h : pool.Orderly) {tx : Transaction}
    {transactions : List Transaction} (hpending : pool.pending = [tx])
    (hout : tx.digest ∉ transactions.map (·.digest)) :
    (pool.markMined transactions).prune.pending = [tx] := by
  have hperm := h.pending_finalize_perm transactions
  rw [hpending, List.filter_cons_of_pos (by simpa using hout), List.filter_nil] at hperm
  exact List.perm_singleton.mp hperm

theorem mem_pending_finalize (h : pool.Orderly) {transactions : List Transaction}
    {tx : Transaction} :
    tx ∈ (pool.markMined transactions).prune.pending ↔
      tx ∈ pool.pending ∧ tx.digest ∉ transactions.map (·.digest) := by
  rw [(h.pending_finalize_perm transactions).mem_iff, List.mem_filter, decide_eq_true_eq]

theorem mem_digests_finalize (h : pool.Orderly) {transactions : List Transaction}
    {digest : Digest} :
    digest ∈ (pool.markMined transactions).prune.digests ↔
      digest ∈ pool.digests ∧ digest ∉ transactions.map (·.digest) := by
  rw [digests, digests, List.mem_map, List.mem_map]
  refine ⟨?_, ?_⟩
  · intro hfound
    obtain ⟨tx, htx, rfl⟩ := hfound
    obtain ⟨hin, hout⟩ := h.mem_pending_finalize.mp htx
    exact ⟨⟨tx, hin, rfl⟩, hout⟩
  · intro hfound
    obtain ⟨⟨tx, hin, rfl⟩, hout⟩ := hfound
    exact ⟨tx, h.mem_pending_finalize.mpr ⟨hin, hout⟩, rfl⟩

theorem status?_finalize (h : pool.Orderly) (transactions : List Transaction) (digest : Digest) :
    (pool.markMined transactions).prune.status? digest =
      if digest ∈ transactions.map (·.digest) then none else pool.status? digest := by
  rw [Pool.status?_prune, status?_markMined]
  by_cases hmem : digest ∈ transactions.map (·.digest)
  · rw [if_pos hmem, if_pos hmem, if_pos rfl]
  · rw [if_neg hmem, if_neg hmem, if_neg (h.unmined digest)]

theorem finalize (h : pool.Orderly) (transactions : List Transaction) :
    (pool.markMined transactions).prune.Orderly := by
  refine ⟨?_, fun digest => ?_, fun digest => ?_⟩
  · refine ((h.pending_finalize_perm transactions).map (·.digest)).nodup_iff.mpr ?_
    exact (List.filter_sublist.map _).nodup h.distinct
  · rw [h.status?_finalize, h.mem_digests_finalize]
    split
    · rename_i hmem
      exact ⟨fun hc => absurd hc (by simp), fun hc => absurd hmem hc.2⟩
    · rename_i hmem
      rw [h.tracked]
      exact ⟨fun hin => ⟨hin, hmem⟩, fun hin => hin.1⟩
  · rw [h.status?_finalize]
    split
    · simp
    · exact h.unmined digest

/-! ### Putting transactions back -/

theorem reinstateOne (h : pool.Orderly) (tx : Transaction) : (pool.reinstateOne tx).Orderly := by
  refine ⟨?_, fun digest => ?_, fun digest => ?_⟩
  · rw [digests, Pool.reinstateOne]
    by_cases hany : pool.pending.any (·.digest == tx.digest) = true
    · rw [hany, if_pos rfl]
      exact h.distinct
    · rw [if_neg hany, List.map_append, List.map_singleton]
      refine List.nodup_append.mpr ⟨h.distinct, List.nodup_singleton _, ?_⟩
      intro a ha b hb hab
      rw [List.mem_singleton] at hb
      obtain ⟨t, ht, hdigest⟩ := List.mem_map.mp ha
      exact hany (List.any_eq_true.mpr ⟨t, ht, beq_iff_eq.mpr (hdigest.trans (hab.trans hb))⟩)
  · rw [status?_reinstateOne, mem_digests_reinstateOne]
    by_cases htx : tx.digest = digest
    · rw [if_pos htx]
      exact ⟨fun _ => Or.inr htx.symm, fun _ => rfl⟩
    · rw [if_neg htx, h.tracked]
      exact ⟨Or.inl, fun hor => hor.resolve_right fun heq => htx heq.symm⟩
  · rw [status?_reinstateOne]
    split
    · simp
    · exact h.unmined digest

end Orderly

end AttestedLedger.Pool
