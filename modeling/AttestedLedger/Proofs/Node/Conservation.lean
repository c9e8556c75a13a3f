/-
No transaction is lost.

Transactions leave the pool when a block is appended and when an attempt completes, and
come back when a mined block is rejected.  `NodeState.Accounts` says where the known
transactions are in between: every one waits, is in the finished block, or is in the
chain, and nothing waits, is taken or is finished that is not known.  There is one lemma
for each operation on the state, as for its upkeep.

`run_conserves` is the result: every transaction submitted in a run is accounted for, and
when no block waits to be accepted, the pool holds exactly those that the chain does not,
in whatever order things happened.
-/
import AttestedLedger.Proofs.Node.Upkeep

namespace AttestedLedger

namespace NodeState

/-- Where the known transactions are, by their digests, while an attempt has taken some and
finished others. -/
structure Accounts (s : NodeState) (known : Digest → Prop) (taken finished : List Transaction) :
    Prop where
  covered : ∀ digest, known digest → digest ∈ s.pool.digests ∨
    digest ∈ finished.map (·.digest) ∨ s.chain.isFinalized digest = true
  pending : ∀ digest ∈ s.pool.digests, known digest
  taken : ∀ tx ∈ taken, known tx.digest
  finished : ∀ tx ∈ finished, known tx.digest

variable {s : NodeState} {known : Digest → Prop} {taken finished : List Transaction}

theorem accounts_start (p : Params) : (start p).Accounts (fun _ => False) [] [] where
  covered := fun _ h => h.elim
  pending := fun _ h => absurd h List.not_mem_nil
  taken := fun _ h => absurd h List.not_mem_nil
  finished := fun _ h => absurd h List.not_mem_nil

/-- An operation that keeps entries and chain, and takes nothing unknown. -/
theorem Accounts.of_same (h : s.Accounts known taken finished) {t : NodeState}
    {others : List Transaction} (hpending : t.pool.pending = s.pool.pending)
    (hchain : t.chain = s.chain) (hothers : ∀ tx ∈ others, known tx.digest) :
    t.Accounts known others finished where
  covered := by
    rw [Pool.digests, hpending, hchain]
    exact h.covered
  pending := by
    rw [Pool.digests, hpending]
    exact h.pending
  taken := hothers
  finished := h.finished

theorem Accounts.congr (h : s.Accounts known taken finished) {others : Digest → Prop}
    (hiff : ∀ digest, known digest ↔ others digest) : s.Accounts others taken finished where
  covered := fun digest hknown => h.covered digest ((hiff digest).mpr hknown)
  pending := fun digest hin => (hiff digest).mp (h.pending digest hin)
  taken := fun tx htx => (hiff tx.digest).mp (h.taken tx htx)
  finished := fun tx htx => (hiff tx.digest).mp (h.finished tx htx)

/-- One more transaction is known, which is somewhere, and what waited still waits. -/
theorem Accounts.learn (h : s.Accounts known taken finished) {t : NodeState} {tx : Transaction}
    (hchain : t.chain = s.chain) (hold : ∀ digest ∈ s.pool.digests, digest ∈ t.pool.digests)
    (honly : ∀ digest ∈ t.pool.digests, digest ∈ s.pool.digests ∨ digest = tx.digest)
    (hnew : tx.digest ∈ t.pool.digests ∨ s.chain.isFinalized tx.digest = true) :
    t.Accounts (fun digest => known digest ∨ digest = tx.digest) taken finished where
  covered := by
    rw [hchain]
    rintro digest (hknown | rfl)
    · exact (h.covered digest hknown).imp (hold digest) id
    · exact hnew.imp id Or.inr
  pending := fun digest hin => (honly digest hin).imp (h.pending digest) id
  taken := fun other hother => Or.inl (h.taken other hother)
  finished := fun other hother => Or.inl (h.finished other hother)

theorem Accounts.submit (h : s.Accounts known taken finished) (horderly : s.pool.Orderly)
    (tx : Transaction) :
    (s.submit tx).1.Accounts (fun digest => known digest ∨ digest = tx.digest) taken finished := by
  rcases submit_cases s tx with ⟨hfinal, heq⟩ | ⟨status, hstatus, heq⟩ | ⟨-, -, heq⟩
  · rw [heq]
    exact h.learn rfl (fun _ hin => hin) (fun _ hin => Or.inl hin) (Or.inr hfinal)
  · rw [heq]
    refine h.learn rfl (fun _ hin => hin) (fun _ hin => Or.inl hin) (Or.inl ?_)
    rw [← horderly.tracked, hstatus, Option.isSome_some]
  · rw [heq]
    have hmem : ∀ digest, digest ∈ (s.pool.pending ++ [tx]).map (·.digest) ↔
        digest ∈ s.pool.digests ∨ digest = tx.digest := by
      intro digest
      rw [List.map_append, List.mem_append, List.map_singleton, List.mem_singleton]
      rfl
    exact h.learn rfl (fun digest hin => (hmem digest).mpr (Or.inl hin))
      (fun digest hin => (hmem digest).mp hin) (Or.inl ((hmem tx.digest).mpr (Or.inr rfl)))

/-- Appending a block moves its transactions into the chain, among them those of a finished block
that it is. -/
theorem Accounts.append (h : s.Accounts known taken finished) (horderly : s.pool.Orderly)
    {block : Block} {left : List Transaction} (hleft : ∀ tx ∈ left, tx ∈ finished)
    (hgone : ∀ tx ∈ finished, tx ∈ left ∨ tx ∈ block.transactions) :
    (s.append block).Accounts known taken left where
  covered := by
    intro digest hknown
    show digest ∈ (s.pool.markMined block.transactions).prune.digests ∨ _
    rw [horderly.mem_digests_finalize, isFinalized_append]
    by_cases hblock : digest ∈ block.transactions.map (·.digest)
    · exact Or.inr (Or.inr (Or.inr hblock))
    rcases h.covered digest hknown with hin | hfinished | hfinal
    · exact Or.inl ⟨hin, hblock⟩
    · obtain ⟨tx, htx, rfl⟩ := List.mem_map.mp hfinished
      rcases hgone tx htx with hstays | hmoves
      · exact Or.inr (Or.inl (List.mem_map_of_mem hstays))
      · exact absurd (List.mem_map_of_mem hmoves) hblock
    · exact Or.inr (Or.inr (Or.inl hfinal))
  pending := by
    intro digest hin
    exact h.pending digest (horderly.mem_digests_finalize.mp hin).1
  taken := h.taken
  finished := fun tx htx => h.finished tx (hleft tx htx)

/-- Completing an attempt moves what was taken into the finished block. -/
theorem Accounts.complete {block : Block} (h : s.Accounts known block.transactions [])
    (horderly : s.pool.Orderly) :
    ({ s with pool := (s.pool.markMined block.transactions).prune } : NodeState).Accounts known []
      block.transactions where
  covered := by
    intro digest hknown
    show digest ∈ (s.pool.markMined block.transactions).prune.digests ∨ _
    rw [horderly.mem_digests_finalize]
    by_cases hblock : digest ∈ block.transactions.map (·.digest)
    · exact Or.inr (Or.inl hblock)
    rcases h.covered digest hknown with hin | hfinished | hfinal
    · exact Or.inl ⟨hin, hblock⟩
    · exact absurd hfinished List.not_mem_nil
    · exact Or.inr (Or.inr hfinal)
  pending := by
    intro digest hin
    exact h.pending digest (horderly.mem_digests_finalize.mp hin).1
  taken := fun _ htx => absurd htx List.not_mem_nil
  finished := h.taken

/-- Rejecting the finished block moves what the chain does not hold back into the pool. -/
theorem Accounts.reinstate {block : Block} (h : s.Accounts known taken block.transactions) :
    (s.reinstate block).Accounts known taken [] where
  covered := by
    intro digest hknown
    show digest ∈ (s.pool.reinstate block.transactions s.chain.isFinalized).digests ∨ _
    rw [Pool.mem_digests_reinstate]
    by_cases hfinal : s.chain.isFinalized digest = true
    · exact Or.inr (Or.inr hfinal)
    rw [Bool.not_eq_true] at hfinal
    rcases h.covered digest hknown with hin | hfinished | hdone
    · exact Or.inl (Or.inl hin)
    · exact Or.inl (Or.inr ⟨hfinished, hfinal⟩)
    · rw [hfinal] at hdone
      exact absurd hdone Bool.false_ne_true
  pending := by
    intro digest hin
    rcases (Pool.mem_digests_reinstate _ _ _ digest).mp hin with hold | ⟨hback, -⟩
    · exact h.pending digest hold
    · obtain ⟨tx, htx, rfl⟩ := List.mem_map.mp hback
      exact h.finished tx htx
  taken := h.taken
  finished := fun _ htx => absurd htx List.not_mem_nil

end NodeState

namespace Attempt

/-- The transactions of the block an attempt ended with. -/
def finished (a : Attempt) : List Transaction :=
  match a.result? with
  | some (.ok block) => block.transactions
  | _ => []

variable {a : Attempt}

theorem finished_of_running (h : a.result? = none) : a.finished = [] := by
  rw [finished, h]

theorem finished_of_ok {block : Block} (h : a.result? = some (.ok block)) :
    a.finished = block.transactions := by
  rw [finished, h]

theorem finished_of_error {e : MiningError} (h : a.result? = some (.error e)) :
    a.finished = [] := by
  rw [finished, h]

/-- Every step of an attempt keeps the account. -/
theorem Effect.accounts {s s' : NodeState} {a' : Attempt} {known : Digest → Prop}
    (heffect : Effect s a s' a') (hsound : s.Sound a.taken)
    (h : s.Accounts known a.taken a.finished) : s'.Accounts known a'.taken a'.finished := by
  have horderly := hsound.tidy.orderly
  have hwaiting : ∀ tx ∈ s.pool.pending, known tx.digest := fun tx htx =>
    h.pending tx.digest (Pool.digest_mem_digests htx)
  cases heffect with
  | idle => exact h
  | worked _ running worked =>
      rw [taken_of_running worked.still, worked.transactions, ← taken_of_running running,
        finished_of_running worked.still, ← finished_of_running running]
      exact h
  | resynced _ now anew running still outcome =>
      rw [taken_of_running running] at hsound h
      rw [taken_of_running still, finished_of_running still, ← finished_of_running running]
      refine h.of_same (NodeState.pending_resync horderly a.candidate now)
        (NodeState.sameLedger_resync s a.candidate now).chain ?_
      cases anew with
      | false =>
          rw [(hsound.resync_kept outcome).2.1]
          exact h.taken
      | true =>
          rw [(hsound.resync_anew outcome).2.1]
          exact hwaiting
  | unsynced _ now error running still outcome candidate =>
      rw [taken_of_running running] at h
      rw [taken_of_running still, candidate, finished_of_running still,
        ← finished_of_running running]
      exact h.of_same (NodeState.pending_resync horderly a.candidate now)
        (NodeState.sameLedger_resync s a.candidate now).chain h.taken
  | completed _ round running _ _ _ candidate result =>
      rw [taken_of_running running, finished_of_running running] at h
      rw [taken_of_ended result, finished_of_ok result, candidate]
      exact NodeState.Accounts.complete h horderly
  | released _ error running result =>
      rw [finished_of_running running] at h
      rw [taken_of_ended result, finished_of_error result]
      exact h.of_same rfl rfl fun _ htx => absurd htx List.not_mem_nil

/-- The first step of an attempt, which takes nothing but what waits. -/
theorem accounts_start (setup : MinerSetup) {s : NodeState} {known : Digest → Prop}
    (hsound : s.Sound []) (h : s.Accounts known [] []) (now : UInt64) :
    (start setup s now).1.Accounts known (start setup s now).2.taken
      (start setup s now).2.finished := by
  have hpending : (start setup s now).1.pool.pending = s.pool.pending := by
    rw [(start_cases setup s now).1]
    exact NodeState.pending_buildCandidate hsound.tidy.orderly setup.miner now
  have hchain := (sameLedger_start setup s now).chain
  rcases start_of_sound setup hsound now with ⟨-, -, hended⟩ | ⟨-, -, hstage, hcandidate⟩
  · rw [taken_of_ended hended, finished_of_error hended]
    exact h.of_same hpending hchain fun _ htx => absurd htx List.not_mem_nil
  · have hstill : (start setup s now).2.result? = none := result?_eq_none hstage rfl
    rw [taken_of_running hstill, finished_of_running hstill, hcandidate]
    exact h.of_same hpending hchain fun tx htx =>
      h.pending tx.digest (Pool.digest_mem_digests htx)

end Attempt

namespace Node

/-- The transactions of the block that waits to be accepted. -/
def awaiting (node : Node) : List Transaction :=
  match node.minedBlock? with
  | none => []
  | some block => block.transactions

variable {node : Node}

theorem awaiting_of_attempt {a : Attempt} (h : node.attempt = some a) :
    node.awaiting = a.finished := by
  rw [awaiting, minedBlock?, h, Attempt.finished]
  dsimp only
  rcases a.result? with _ | (e | block)
  · rfl
  · rfl
  · rfl

theorem awaiting_of_waiting {block : Block} (h : node.minedBlock? = some block) :
    node.awaiting = block.transactions := by
  rw [awaiting, h]

/-- What awaits acceptance is in a finished block. -/
theorem exists_minedBlock_of_awaiting {digest : Digest}
    (h : digest ∈ node.awaiting.map (·.digest)) :
    ∃ block, node.minedBlock? = some block ∧ digest ∈ block.transactions.map (·.digest) := by
  rw [awaiting] at h
  cases hblock : node.minedBlock? with
  | none =>
      rw [hblock] at h
      exact absurd h List.not_mem_nil
  | some block =>
      rw [hblock] at h
      exact ⟨block, rfl, h⟩

theorem minedBlock?_of_mayBegin (h : node.mayBegin = true) : node.minedBlock? = none := by
  rw [mayBegin] at h
  rw [minedBlock?]
  cases hattempt : node.attempt with
  | none => rfl
  | some a =>
      rw [hattempt] at h
      dsimp only at h ⊢
      split at h
      · rename_i e hended
        rw [hended]
      · exact absurd h Bool.false_ne_true

theorem awaiting_of_mayBegin (h : node.mayBegin = true) : node.awaiting = [] := by
  rw [awaiting, minedBlock?_of_mayBegin h]

/-! ### Runs -/

/-- The transactions that events submit. -/
def submissions (events : List NodeEvent) : List Transaction :=
  events.filterMap NodeEvent.submission?

theorem submissions_cons_of_quiet {event : NodeEvent} (h : event.submission? = none)
    (rest : List NodeEvent) : submissions (event :: rest) = submissions rest := by
  rw [submissions, List.filterMap_cons, h]
  rfl

/-- Every event of a node keeps the account, with what it submits. -/
theorem Effect.accounts {event : NodeEvent} {next : Node} {known : Digest → Prop}
    (heffect : Effect node event next) (hsound : node.state.Sound node.claimed)
    (h : node.state.Accounts known node.claimed node.awaiting) :
    next.state.Accounts (fun digest => known digest ∨ digest ∈ (submissions [event]).map (·.digest))
      next.claimed next.awaiting := by
  have horderly := hsound.tidy.orderly
  -- all but a submission leave the account of the known transactions as it is
  suffices hquiet : event.submission? = none →
      next.state.Accounts known next.claimed next.awaiting by
    cases hevent : event.submission? with
    | none =>
        rw [submissions_cons_of_quiet hevent]
        exact (hquiet hevent).congr fun digest => by simp [submissions]
    | some tx =>
        cases heffect with
        | submitted tx =>
            exact (h.submit horderly tx).congr fun digest => by
              simp [submissions, NodeEvent.submission?]
        | idle _ quiet =>
            rw [quiet] at hevent
            exact absurd hevent (by simp)
        | _ => exact absurd hevent (by simp [NodeEvent.submission?])
  intro hevent
  cases heffect with
  | idle => exact h
  | submitted tx => exact absurd hevent (by simp [NodeEvent.submission?])
  | appended now block acceptable =>
      exact h.append horderly (fun _ htx => htx) fun _ htx => Or.inl htx
  | began now may =>
      rw [claimed_of_mayBegin may] at hsound h
      rw [awaiting_of_mayBegin may] at h
      rw [awaiting_of_attempt rfl]
      exact Attempt.accounts_start node.setup hsound h now
  | mined event a attempt effect =>
      rw [claimed, attempt] at hsound h
      rw [awaiting_of_attempt attempt] at h
      rw [awaiting_of_attempt rfl]
      exact effect.accounts hsound h
  | accepted now block waiting acceptable =>
      rw [claimed_of_waiting waiting, awaiting_of_waiting waiting] at h
      exact h.append horderly (fun _ htx => absurd htx List.not_mem_nil) fun _ htx => Or.inr htx
  | rejected now block waiting =>
      rw [claimed_of_waiting waiting, awaiting_of_waiting waiting] at h
      exact h.reinstate
  | saved archive => exact h

theorem accounts_run :
    ∀ (events : List NodeEvent) {node : Node} {known : Digest → Prop},
      node.state.Sound node.claimed →
      node.state.Accounts known node.claimed node.awaiting →
      (node.run events).state.Accounts
        (fun digest => known digest ∨ digest ∈ (submissions events).map (·.digest))
        (node.run events).claimed (node.run events).awaiting := by
  intro events
  induction events with
  | nil =>
      intro node known _ h
      exact h.congr fun digest => by simp [submissions]
  | cons event rest ih =>
      intro node known hsound h
      have heffect := step_effect node event
      refine (ih (heffect.sound hsound) (heffect.accounts hsound h)).congr fun digest => ?_
      have hsplit : submissions (event :: rest) = submissions [event] ++ submissions rest := by
        rw [submissions, submissions, submissions, ← List.filterMap_append]
        rfl
      rw [hsplit, List.map_append, List.mem_append, or_assoc]

/-- A node that starts fresh accounts for what the events submit. -/
theorem accounts_run_fresh (identity : Identity) (peers : List Address) (p : Params)
    (archive : Option Archive) (events : List NodeEvent) :
    ((fresh identity peers p archive).run events).state.Accounts
      (fun digest => False ∨ digest ∈ (submissions events).map (·.digest))
      ((fresh identity peers p archive).run events).claimed
      ((fresh identity peers p archive).run events).awaiting :=
  accounts_run events (NodeState.sound_start p) (NodeState.accounts_start p)

/-! ### What an observer sees -/

/-- Where the transactions submitted by the events are, while the node's state is free. -/
structure Conserves (node : Node) (events : List NodeEvent) : Prop where
  /-- Each waits, is in the block that awaits acceptance, or is in a block of the chain. -/
  accounted : ∀ tx ∈ submissions events, tx.digest ∈ node.state.pool.digests ∨
    (∃ block, node.minedBlock? = some block ∧ tx.digest ∈ block.transactions.map (·.digest)) ∨
    Recorded node.state.chain.blocks tx.digest
  /-- When no block awaits acceptance, those wait that no block of the chain holds. -/
  waiting : node.minedBlock? = none → ∀ digest, digest ∈ node.state.pool.digests ↔
    digest ∈ (submissions events).map (·.digest) ∧ ¬Recorded node.state.chain.blocks digest

/-- **Whatever happens to a fresh node, no transaction is lost**, and what waits depends on what
was submitted and on the chain alone. -/
theorem run_conserves (identity : Identity) (peers : List Address) (p : Params)
    (archive : Option Archive) (events : List NodeEvent) :
    ((fresh identity peers p archive).run events).Conserves events := by
  have hsound := sound_run_fresh identity peers p archive events
  have haccounts := accounts_run_fresh identity peers p archive events
  generalize (fresh identity peers p archive).run events = node at hsound haccounts ⊢
  have hindexed := hsound.indexed.finalized
  have hknown : ∀ digest, (False ∨ digest ∈ (submissions events).map (·.digest)) ↔
      digest ∈ (submissions events).map (·.digest) := fun digest => by simp
  refine ⟨?_, ?_⟩
  · intro tx htx
    rcases haccounts.covered tx.digest (Or.inr (List.mem_map_of_mem htx)) with
      hin | hfinished | hfinal
    · exact Or.inl hin
    · exact Or.inr (Or.inl (exists_minedBlock_of_awaiting hfinished))
    · exact Or.inr (Or.inr ((hindexed tx.digest).mp hfinal))
  · intro hnone digest
    refine ⟨?_, ?_⟩
    · intro hin
      refine ⟨(hknown digest).mp (haccounts.pending digest hin), fun hrecorded => ?_⟩
      obtain ⟨tx, htx, rfl⟩ := List.mem_map.mp hin
      have hfresh := hsound.tidy.fresh tx htx
      rw [(hindexed tx.digest).mpr hrecorded] at hfresh
      exact absurd hfresh (by simp)
    · intro hboth
      obtain ⟨hsubmitted, hunrecorded⟩ := hboth
      rcases haccounts.covered digest (Or.inr hsubmitted) with hin | hfinished | hfinal
      · exact hin
      · rw [awaiting, hnone] at hfinished
        exact absurd hfinished List.not_mem_nil
      · exact absurd ((hindexed digest).mp hfinal) hunrecorded

end Node

end AttestedLedger
