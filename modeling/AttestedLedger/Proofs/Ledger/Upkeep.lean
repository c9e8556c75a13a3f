/-
How a node's state is kept in order.

`NodeState.Tidy s taken` ties together the pool's entries and statuses, the finalized
transactions of the chain, and the transactions `taken` into the candidate of the attempt
under way, none when there is no attempt: the pool is orderly, exactly the waiting
transactions that are taken are marked as being mined, no waiting transaction is in the
chain, and what was taken and waits no more is in the chain.

There is one lemma for each operation on the state.  Appending a block keeps `Tidy`
whatever the block; building a candidate starts from nothing taken and takes everything
that waits; releasing a candidate gives back exactly what it took.

`NodeState.Anchored` says that the signal shows the tip and that the tip links to its
predecessor.  Under it, building and resyncing never find the chain broken.

`NodeState.Sound` is both, with the indexes of the chain.
-/
import AttestedLedger.Proofs.Ledger.History
import AttestedLedger.Proofs.Ledger.Pool

namespace AttestedLedger.NodeState

/-- The pool is in order beside the chain, while an attempt has taken some transactions. -/
structure Tidy (s : NodeState) (taken : List Transaction) : Prop where
  orderly : s.pool.Orderly
  mining : ∀ tx ∈ s.pool.pending, s.pool.status? tx.digest = some .mining ↔ tx ∈ taken
  held : ∀ tx ∈ taken, tx ∈ s.pool.pending ∨ s.chain.isFinalized tx.digest = true
  fresh : ∀ tx ∈ s.pool.pending, s.chain.isFinalized tx.digest = false

/-- The signal shows the tip, and the tip links to its predecessor. -/
structure Anchored (s : NodeState) : Prop where
  signal : s.signal.value = s.chain.tipDigest
  link : s.chain.checkTipLink = .ok ()

theorem tidy_of_empty_pool {s : NodeState} (h : s.pool = .empty) : s.Tidy [] := by
  refine ⟨?_, ?_, ?_, ?_⟩
  · rw [h]
    exact Pool.orderly_empty
  · intro tx htx
    rw [h] at htx
    exact absurd htx List.not_mem_nil
  · intro tx htx
    exact absurd htx List.not_mem_nil
  · intro tx htx
    rw [h] at htx
    exact absurd htx List.not_mem_nil

/-! ### Submitting -/

/-- **The three answers to a submission**, each with what the state becomes. -/
theorem submit_cases (s : NodeState) (tx : Transaction) :
    (s.chain.isFinalized tx.digest = true ∧ s.submit tx = (s, .ignored .mined)) ∨
    (∃ status, s.pool.status? tx.digest = some status ∧ s.submit tx = (s, .ignored status)) ∨
    (s.chain.isFinalized tx.digest = false ∧ s.pool.status? tx.digest = none ∧
      s.submit tx = ({ s with
        pool := ⟨s.pool.pending ++ [tx], s.pool.status.insert tx.digest .unmined⟩ }, .added)) := by
  rw [submit]
  cases hfinal : s.chain.isFinalized tx.digest with
  | true => exact Or.inl ⟨rfl, rfl⟩
  | false =>
      rw [if_neg Bool.false_ne_true, Pool.submit]
      cases hstatus : s.pool.status? tx.digest with
      | some status => exact Or.inr (Or.inl ⟨status, rfl, rfl⟩)
      | none => exact Or.inr (Or.inr ⟨rfl, rfl, rfl⟩)

/-- What neither waits nor is in the chain is not taken. -/
theorem Tidy.not_taken {s : NodeState} {taken : List Transaction} (h : s.Tidy taken)
    {tx : Transaction} (hfinal : s.chain.isFinalized tx.digest = false)
    (hnone : s.pool.status? tx.digest = none) : tx ∉ taken := by
  intro hin
  rcases h.held tx hin with hwaits | hdone
  · exact h.orderly.not_mem_of_status?_eq_none hnone (Pool.digest_mem_digests hwaits)
  · rw [hfinal] at hdone
    exact Bool.false_ne_true hdone

/-- A transaction that is new to pool and chain is added. -/
theorem Tidy.push {s : NodeState} {taken : List Transaction} (h : s.Tidy taken)
    {tx : Transaction} (hfinal : s.chain.isFinalized tx.digest = false)
    (hnone : s.pool.status? tx.digest = none) :
    ({ s with pool := ⟨s.pool.pending ++ [tx], s.pool.status.insert tx.digest .unmined⟩ } :
      NodeState).Tidy taken := by
  have hnew := h.orderly.not_mem_of_status?_eq_none hnone
  have hstatus : ∀ digest, (s.pool.status.insert tx.digest TxStatus.unmined)[digest]? =
      if tx.digest = digest then some .unmined else s.pool.status? digest :=
    fun digest => Pool.status?_reinstateOne s.pool tx digest
  refine ⟨h.orderly.push hnone, ?_, ?_, ?_⟩
  · intro t ht
    show (s.pool.status.insert tx.digest TxStatus.unmined)[t.digest]? = some .mining ↔ t ∈ taken
    rw [hstatus]
    rcases List.mem_append.mp ht with hold | hsame
    · have hne : tx.digest ≠ t.digest := by
        intro hc
        exact hnew (hc ▸ Pool.digest_mem_digests hold)
      rw [if_neg hne]
      exact h.mining t hold
    · obtain rfl := List.mem_singleton.mp hsame
      rw [if_pos rfl]
      exact iff_of_false (by simp) (h.not_taken hfinal hnone)
  · intro t ht
    exact (h.held t ht).imp (fun hin => List.mem_append_left _ hin) id
  · intro t ht
    rcases List.mem_append.mp ht with hold | hsame
    · exact h.fresh t hold
    · rw [List.mem_singleton.mp hsame]
      exact hfinal

theorem Tidy.submit {s : NodeState} {taken : List Transaction} (h : s.Tidy taken)
    (tx : Transaction) : (s.submit tx).1.Tidy taken := by
  rcases submit_cases s tx with ⟨-, heq⟩ | ⟨status, -, heq⟩ | ⟨hfinal, hnone, heq⟩
  · rw [heq]
    exact h
  · rw [heq]
    exact h
  · rw [heq]
    exact h.push hfinal hnone

/-! ### Blocks -/

theorem isFinalized_append (s : NodeState) (block : Block) (digest : Digest) :
    (s.append block).chain.isFinalized digest = true ↔
      s.chain.isFinalized digest = true ∨ digest ∈ block.transactions.map (·.digest) :=
  Chain.isFinalized_push s.chain block digest

/-- **Appending any block keeps the state tidy.** -/
theorem Tidy.append {s : NodeState} {taken : List Transaction} (h : s.Tidy taken) (block : Block) :
    (s.append block).Tidy taken := by
  refine ⟨h.orderly.finalize block.transactions, ?_, ?_, ?_⟩
  · intro tx htx
    obtain ⟨hin, hout⟩ := h.orderly.mem_pending_finalize.mp htx
    show (s.pool.markMined block.transactions).prune.status? tx.digest = _ ↔ _
    rw [h.orderly.status?_finalize, if_neg hout]
    exact h.mining tx hin
  · intro tx htx
    rw [isFinalized_append]
    rcases h.held tx htx with hin | hdone
    · by_cases hblock : tx.digest ∈ block.transactions.map (·.digest)
      · exact Or.inr (Or.inr hblock)
      · exact Or.inl (h.orderly.mem_pending_finalize.mpr ⟨hin, hblock⟩)
    · exact Or.inr (Or.inl hdone)
  · intro tx htx
    obtain ⟨hin, hout⟩ := h.orderly.mem_pending_finalize.mp htx
    rw [← Bool.not_eq_true, isFinalized_append, not_or, Bool.not_eq_true]
    exact ⟨h.fresh tx hin, hout⟩

/-- A mined block's transactions leave the pool, and nothing is taken any more. -/
theorem Tidy.complete {s : NodeState} {block : Block} (h : s.Tidy block.transactions) :
    ({ s with pool := (s.pool.markMined block.transactions).prune } : NodeState).Tidy [] := by
  refine ⟨h.orderly.finalize block.transactions, ?_, ?_, ?_⟩
  · intro tx htx
    obtain ⟨hin, hout⟩ := h.orderly.mem_pending_finalize.mp htx
    show (s.pool.markMined block.transactions).prune.status? tx.digest = _ ↔ _
    rw [h.orderly.status?_finalize, if_neg hout, h.mining tx hin]
    refine ⟨?_, ?_⟩
    · intro htaken
      exact absurd (List.mem_map_of_mem htaken) hout
    · intro hc
      exact absurd hc List.not_mem_nil
  · intro tx htx
    exact absurd htx List.not_mem_nil
  · intro tx htx
    exact h.fresh tx (h.orderly.mem_pending_finalize.mp htx).1

/-! ### Giving back -/

theorem Tidy.release {s : NodeState} {block : Block} (h : s.Tidy block.transactions) :
    (s.release block).Tidy [] := by
  refine ⟨h.orderly.release block.transactions, ?_, ?_, h.fresh⟩
  · intro tx htx
    show (s.pool.release block.transactions).status? tx.digest = _ ↔ _
    rw [Pool.status?_release]
    refine ⟨?_, ?_⟩
    · intro hmining
      split at hmining
      · exact absurd hmining (by simp)
      · rename_i hkept
        have htaken := (h.mining tx htx).mp hmining
        exact absurd ⟨List.mem_map_of_mem htaken, hmining⟩ hkept
    · intro hc
      exact absurd hc List.not_mem_nil
  · intro tx htx
    exact absurd htx List.not_mem_nil

theorem Tidy.reinstateOne {s : NodeState} (h : s.Tidy []) {tx : Transaction}
    (hfinal : s.chain.isFinalized tx.digest = false) :
    ({ s with pool := s.pool.reinstateOne tx } : NodeState).Tidy [] := by
  have hentry : ∀ t ∈ (s.pool.reinstateOne tx).pending, t ∈ s.pool.pending ∨ t = tx := by
    intro t ht
    rw [Pool.reinstateOne] at ht
    split at ht
    · exact Or.inl ht
    · exact (List.mem_append.mp ht).imp id List.mem_singleton.mp
  refine ⟨h.orderly.reinstateOne tx, ?_, ?_, ?_⟩
  · intro t ht
    show (s.pool.reinstateOne tx).status? t.digest = _ ↔ _
    rw [Pool.status?_reinstateOne]
    split
    · refine ⟨?_, ?_⟩
      · intro hc
        exact absurd hc (by simp)
      · intro hc
        exact absurd hc List.not_mem_nil
    · rename_i hne
      rcases hentry t ht with hold | rfl
      · exact h.mining t hold
      · exact absurd rfl hne
  · intro t ht
    exact absurd ht List.not_mem_nil
  · intro t ht
    rcases hentry t ht with hold | rfl
    · exact h.fresh t hold
    · exact hfinal

theorem Tidy.reinstateAll :
    ∀ (transactions : List Transaction) {s : NodeState}, s.Tidy [] →
      (∀ tx ∈ transactions, s.chain.isFinalized tx.digest = false) →
      ({ s with pool := transactions.foldl Pool.reinstateOne s.pool } : NodeState).Tidy [] := by
  intro transactions
  induction transactions with
  | nil => intro s h _; exact h
  | cons tx rest ih =>
      intro s h hfinal
      exact ih (h.reinstateOne (hfinal tx List.mem_cons_self))
        fun t ht => hfinal t (List.mem_cons_of_mem tx ht)

theorem Tidy.reinstate {s : NodeState} (h : s.Tidy []) (block : Block) :
    (s.reinstate block).Tidy [] := by
  refine Tidy.reinstateAll _ h fun tx htx => ?_
  have hout := (List.mem_filter.mp htx).2
  rwa [Bool.not_eq_true'] at hout

/-! ### Building and resyncing -/

theorem Tidy.prune {s : NodeState} {taken : List Transaction} (h : s.Tidy taken) :
    ({ s with pool := s.pool.prune } : NodeState).Tidy taken := by
  refine ⟨h.orderly.prune, ?_, ?_, ?_⟩
  · intro tx htx
    show s.pool.prune.status? tx.digest = _ ↔ _
    rw [h.orderly.status?_prune]
    exact h.mining tx (h.orderly.pending_prune ▸ htx)
  · intro tx htx
    show tx ∈ s.pool.prune.pending ∨ _
    rw [h.orderly.pending_prune]
    exact h.held tx htx
  · intro tx htx
    exact h.fresh tx (h.orderly.pending_prune ▸ htx)

/-- When nothing is taken, marking everything that waits takes it. -/
theorem Tidy.markAll {s : NodeState} (h : s.Tidy []) :
    ({ s with pool := s.pool.markMining s.pool.pending } : NodeState).Tidy s.pool.pending := by
  refine ⟨h.orderly.markMining, ?_, fun tx htx => Or.inl htx, h.fresh⟩
  intro tx htx
  have hnotMined := h.orderly.unmined tx.digest
  have hmem : tx.digest ∈ s.pool.pending.map (·.digest) := Pool.digest_mem_digests htx
  show (s.pool.markMining s.pool.pending).status? tx.digest = _ ↔ _
  rw [Pool.status?_markMining, if_pos hmem]
  refine ⟨fun _ => htx, fun _ => ?_⟩
  rcases hstatus : s.pool.status? tx.digest with _ | status
  · rfl
  · rw [hstatus] at hnotMined
    cases status with
    | unmined => rfl
    | mining => rfl
    | mined => exact absurd rfl hnotMined

/-- The state after building: a candidate is made of everything that waits, which is marked, or
the pool is dry. -/
theorem buildCandidate_eq {s : NodeState} (h : s.pool.Orderly)
    (hlink : s.chain.checkTipLink = .ok ()) (miner : MinerKey) (now : UInt64) :
    s.buildCandidate miner now =
      if s.pool.pending = [] then ({ s with pool := s.pool.prune }, .error .poolDry)
      else ({ s with pool := s.pool.prune.markMining s.pool.pending },
        .ok (s.freshCandidate miner now)) := by
  rw [buildCandidate, hlink]
  have hfresh : ({ s with pool := s.pool.prune } : NodeState).freshCandidate miner now =
      s.freshCandidate miner now := by
    show Block.candidate miner s.pool.prune.pending _ _ _ =
      Block.candidate miner s.pool.pending _ _ _
    rw [h.pending_prune]
    rfl
  by_cases hdry : s.pool.pending = []
  · rw [if_pos hdry]
    simp only [h.pending_prune, List.isEmpty_iff.mpr hdry, if_true]
  · rw [if_neg hdry]
    simp only [h.pending_prune, List.isEmpty_eq_false_iff.mpr hdry, Bool.false_eq_true, if_false,
      hfresh]

/-- **What building a candidate does to a tidy state in which nothing is taken.** -/
theorem Tidy.build_cases {s : NodeState} (h : s.Tidy []) (hlink : s.chain.checkTipLink = .ok ())
    (miner : MinerKey) (now : UInt64) :
    (s.pool.pending = [] ∧ (s.buildCandidate miner now).2 = .error .poolDry ∧
      (s.buildCandidate miner now).1.Tidy []) ∨
    (s.pool.pending ≠ [] ∧
      (s.buildCandidate miner now).2 = .ok (s.freshCandidate miner now) ∧
      (s.buildCandidate miner now).1.Tidy s.pool.pending) := by
  rw [buildCandidate_eq h.orderly hlink]
  by_cases hdry : s.pool.pending = []
  · rw [if_pos hdry]
    exact Or.inl ⟨hdry, rfl, h.prune⟩
  · rw [if_neg hdry]
    refine Or.inr ⟨hdry, rfl, ?_⟩
    have hmarked := h.prune.markAll
    rwa [show ({ s with pool := s.pool.prune } : NodeState).pool.pending = s.pool.pending
      from h.orderly.pending_prune] at hmarked

/-- Building leaves the entries as they are. -/
theorem pending_buildCandidate {s : NodeState} (h : s.pool.Orderly) (miner : MinerKey)
    (now : UInt64) : (s.buildCandidate miner now).1.pool.pending = s.pool.pending := by
  cases hlink : s.chain.checkTipLink with
  | error e => rw [buildCandidate, hlink]
  | ok _ =>
      rw [buildCandidate_eq h hlink]
      split <;> exact h.pending_prune

/-- The state after resyncing: nothing but a pruned pool when the candidate is current, and
otherwise a build from what the candidate gives back. -/
theorem resync_eq {s : NodeState} {block : Block} (h : s.pool.Orderly)
    (hlink : s.chain.checkTipLink = .ok ()) (now : UInt64) :
    s.resync block now =
      if s.isCurrent block = true then ({ s with pool := s.pool.prune }, .ok (false, block))
      else
        ((({ s with pool := s.pool.prune } : NodeState).release block |>.buildCandidate
            block.miner now).1,
          (({ s with pool := s.pool.prune } : NodeState).release block |>.buildCandidate
            block.miner now).2.map fun fresh => (true, fresh)) := by
  have hcurrent : ({ s with pool := s.pool.prune } : NodeState).isCurrent block =
      s.isCurrent block := by
    rw [isCurrent, isCurrent]
    simp only [h.pending_prune]
  rw [resync, hlink]
  simp only [hcurrent]

/-- **What resyncing does to a tidy state in which the candidate's transactions are taken.** -/
theorem Tidy.resync_cases {s : NodeState} {block : Block} (h : s.Tidy block.transactions)
    (hlink : s.chain.checkTipLink = .ok ()) (now : UInt64) :
    (s.isCurrent block = true ∧ (s.resync block now).2 = .ok (false, block) ∧
      (s.resync block now).1.Tidy block.transactions) ∨
    (s.isCurrent block = false ∧ s.pool.pending ≠ [] ∧
      (s.resync block now).2 = .ok (true, s.freshCandidate block.miner now) ∧
      (s.resync block now).1.Tidy s.pool.pending) ∨
    (s.isCurrent block = false ∧ s.pool.pending = [] ∧
      (s.resync block now).2 = .error .poolDry ∧
      (s.resync block now).1.Tidy block.transactions) := by
  rw [resync_eq h.orderly hlink]
  cases hcurrent : s.isCurrent block with
  | true =>
      rw [if_pos rfl]
      exact Or.inl ⟨rfl, rfl, h.prune⟩
  | false =>
      rw [if_neg Bool.false_ne_true]
      refine Or.inr ?_
      have hpending : (({ s with pool := s.pool.prune } : NodeState).release block).pool.pending =
          s.pool.pending := h.orderly.pending_prune
      have hfresh : (({ s with pool := s.pool.prune } : NodeState).release block).freshCandidate
          block.miner now = s.freshCandidate block.miner now := by
        rw [freshCandidate, hpending]
        rfl
      rcases h.prune.release.build_cases hlink block.miner now with
        ⟨hdry, herror, htidy⟩ | ⟨hsome, hok, htidy⟩
      · rw [hpending] at hdry
        refine Or.inr ⟨rfl, hdry, ?_, ?_⟩
        · rw [herror]
          rfl
        · -- nothing waits, so whatever was taken is in the chain
          have hempty := pending_buildCandidate h.prune.release.orderly block.miner now
          rw [hpending, hdry] at hempty
          refine ⟨htidy.orderly, ?_, ?_, htidy.fresh⟩
          · intro tx htx
            rw [hempty] at htx
            exact absurd htx List.not_mem_nil
          · intro tx htx
            refine Or.inr ?_
            rw [(sameLedger_buildCandidate _ block.miner now).chain]
            refine (h.held tx htx).resolve_left fun hin => ?_
            rw [hdry] at hin
            exact absurd hin List.not_mem_nil
      · rw [hpending] at hsome htidy
        rw [hfresh] at hok
        refine Or.inl ⟨rfl, hsome, ?_, htidy⟩
        rw [hok]
        rfl

/-- Resyncing leaves the entries as they are. -/
theorem pending_resync {s : NodeState} (h : s.pool.Orderly) (block : Block) (now : UInt64) :
    (s.resync block now).1.pool.pending = s.pool.pending := by
  cases hlink : s.chain.checkTipLink with
  | error e => rw [resync, hlink]
  | ok _ =>
      rw [resync_eq h hlink]
      split
      · exact h.pending_prune
      · exact (pending_buildCandidate (h.prune.release block.transactions) _ _).trans
          h.pending_prune

/-! ### The tip and its signal -/

theorem Anchored.of_sameLedger {s t : NodeState} (h : s.Anchored) (hsame : s.SameLedger t) :
    t.Anchored := by
  refine ⟨?_, ?_⟩
  · rw [hsame.signal, hsame.chain]
    exact h.signal
  · rw [hsame.chain]
    exact h.link

theorem tipDigest_eq_of_checkTipLink {chain : Chain} (h : chain.checkTipLink = .ok ()) :
    chain.tip.digest = chain.tipDigest := by
  rw [Chain.checkTipLink] at h
  by_contra hne
  rw [if_pos hne] at h
  exact absurd h (by simp)

theorem anchored_ofParts {chain : Chain} (h : chain.checkTipLink = .ok ()) (pool : Pool)
    (p : Params) : (ofParts chain pool p).Anchored := ⟨rfl, h⟩

theorem Anchored.append {s : NodeState} (h : s.Anchored) {block : Block}
    (htip : block.previous = s.chain.tipDigest) : (s.append block).Anchored := by
  refine ⟨rfl, ?_⟩
  have hprevious : block.previous = s.chain.tip.digest :=
    htip.trans (tipDigest_eq_of_checkTipLink h.link).symm
  exact Chain.checkTipLink_push hprevious

/-- When the tip links, building fails only for want of transactions. -/
theorem buildCandidate_ne_integrity {s : NodeState} (hlink : s.chain.checkTipLink = .ok ())
    (miner : MinerKey) (now : UInt64) (e : IntegrityError) :
    (s.buildCandidate miner now).2 ≠ .error (.integrity e) := by
  rw [buildCandidate, hlink]
  dsimp only
  split
  · simp
  · simp

theorem resync_ne_integrity {s : NodeState} (hlink : s.chain.checkTipLink = .ok ()) (block : Block)
    (now : UInt64) (e : IntegrityError) : (s.resync block now).2 ≠ .error (.integrity e) := by
  rw [resync, hlink]
  dsimp only
  split
  · simp
  · have hbuild := buildCandidate_ne_integrity
      (s := ({ s with pool := s.pool.prune } : NodeState).release block)
      hlink block.miner now e
    intro hc
    generalize (NodeState.buildCandidate _ block.miner now).2 = outcome at hbuild hc
    cases outcome with
    | error error => exact hbuild (Except.error.inj hc ▸ rfl)
    | ok fresh => exact absurd hc (by simp [Except.map])

/-! ### All of it -/

/-- Pool, chain and signal are in order while some transactions are taken. -/
structure Sound (s : NodeState) (taken : List Transaction) : Prop where
  tidy : s.Tidy taken
  anchored : s.Anchored
  indexed : s.chain.Indexed

variable {s : NodeState} {taken : List Transaction}

/-- An operation on the pool alone. -/
theorem Sound.of_sameLedger (h : s.Sound taken) {t : NodeState} {others : List Transaction}
    (hsame : s.SameLedger t) (htidy : t.Tidy others) : t.Sound others := by
  refine ⟨htidy, h.anchored.of_sameLedger hsame, ?_⟩
  rw [hsame.chain]
  exact h.indexed

theorem Sound.submit (h : s.Sound taken) (tx : Transaction) : (s.submit tx).1.Sound taken :=
  h.of_sameLedger (sameLedger_submit s tx) (h.tidy.submit tx)

theorem Sound.submitAll :
    ∀ (transactions : List Transaction) {s : NodeState}, s.Sound taken →
      (s.submitAll transactions).Sound taken := by
  intro transactions
  induction transactions with
  | nil => intro s h; exact h
  | cons tx rest ih => intro s h; exact ih (h.submit tx)

theorem Sound.append (h : s.Sound taken) {now : UInt64} {block : Block}
    (hok : s.rules.Acceptable s.chain now block) : (s.append block).Sound taken :=
  ⟨h.tidy.append block, h.anchored.append hok.onTip, h.indexed.push block⟩

/-- No block of the chain holds what waits. -/
theorem Sound.not_recorded (h : s.Sound taken) {digest : Digest} (hin : digest ∈ s.pool.digests) :
    ¬Recorded s.chain.blocks digest := by
  intro hrecorded
  obtain ⟨tx, htx, rfl⟩ := List.mem_map.mp hin
  have hfresh := h.tidy.fresh tx htx
  rw [(h.indexed.finalized tx.digest).mpr hrecorded] at hfresh
  exact absurd hfresh (by simp)

/-! ### Resyncing, by its answer -/

section Resync

variable {block fresh : Block} {now : UInt64}

theorem Sound.resync_kept (h : s.Sound block.transactions)
    (hok : (s.resync block now).2 = .ok (false, fresh)) :
    s.isCurrent block = true ∧ fresh = block ∧ (s.resync block now).1.Sound block.transactions := by
  rcases h.tidy.resync_cases h.anchored.link now with
    ⟨hcurrent, hkept, htidy⟩ | ⟨-, -, hanew, -⟩ | ⟨-, -, herror, -⟩
  · have hsame := Except.ok.inj (hok.symm.trans hkept)
    exact ⟨hcurrent, (Prod.mk.inj hsame).2, h.of_sameLedger (sameLedger_resync s block now) htidy⟩
  · exact absurd (hok.symm.trans hanew) (by simp)
  · exact absurd (hok.symm.trans herror) (by simp)

theorem Sound.resync_anew (h : s.Sound block.transactions)
    (hok : (s.resync block now).2 = .ok (true, fresh)) :
    s.pool.pending ≠ [] ∧ fresh = s.freshCandidate block.miner now ∧
      (s.resync block now).1.Sound s.pool.pending := by
  rcases h.tidy.resync_cases h.anchored.link now with
    ⟨-, hkept, -⟩ | ⟨-, hwaiting, hanew, htidy⟩ | ⟨-, -, herror, -⟩
  · exact absurd (hok.symm.trans hkept) (by simp)
  · have hsame := Except.ok.inj (hok.symm.trans hanew)
    exact ⟨hwaiting, (Prod.mk.inj hsame).2, h.of_sameLedger (sameLedger_resync s block now) htidy⟩
  · exact absurd (hok.symm.trans herror) (by simp)

theorem Sound.resync_error (h : s.Sound block.transactions) {e : MiningError}
    (herror : (s.resync block now).2 = .error e) :
    (s.resync block now).1.Sound block.transactions := by
  refine h.of_sameLedger (sameLedger_resync s block now) ?_
  rcases h.tidy.resync_cases h.anchored.link now with
    ⟨-, -, htidy⟩ | ⟨-, -, hanew, -⟩ | ⟨-, -, -, htidy⟩
  · exact htidy
  · exact absurd (herror.symm.trans hanew) (by simp)
  · exact htidy

end Resync

/-! ### Where a node starts -/

theorem sound_ofParts {chain : Chain} (hindexed : chain.Indexed)
    (hlink : chain.checkTipLink = .ok ()) (p : Params) : (ofParts chain .empty p).Sound [] :=
  ⟨tidy_of_empty_pool rfl, anchored_ofParts hlink .empty p, hindexed⟩

theorem sound_start (p : Params) : (start p).Sound [] :=
  sound_ofParts Chain.indexed_start Chain.checkTipLink_start p

end AttestedLedger.NodeState
