/-
How a node keeps its state in order.

`Node.claimed` is what the attempt under way has taken from the pool: the transactions of
its candidate, and nothing when no attempt is under way.  `NodeState.Sound` ties that to
the pool and the chain, and every event of a node keeps it.

`Node.Consistent` says what follows for an observer of the state between two events, in
terms of the pool's entries, its statuses, the blocks of the chain and the candidate, and
that building and resyncing never find the chain broken.  `run_consistent` is the result,
for a node that starts fresh and for one restored from whatever archive.
-/
import AttestedLedger.Proofs.Archive.Load
import AttestedLedger.Proofs.Ledger.Upkeep
import AttestedLedger.Proofs.Node.Step

namespace AttestedLedger

theorem NodeState.sound_of_load {archive : Archive} {p : Params} {s : NodeState}
    (h : archive.load p = .ok (some s)) : s.Sound [] := by
  obtain ⟨chain, transactions, -, hrebuilt, -, -, rfl⟩ := Archive.load_spec h
  exact Sound.submitAll transactions (sound_ofParts (.ofBlocks hrebuilt)
    (Chain.checkTipLink_of_verifyIntegrity hrebuilt.verifyIntegrity) p)

/-- What a node begins with is in order. -/
theorem NodeState.sound_of_origin {p : Params} {s : NodeState}
    (h : s = .start p ∨ ∃ saved : Archive, saved.load p = .ok (some s)) : s.Sound [] := by
  rcases h with rfl | ⟨saved, hload⟩
  · exact sound_start p
  · exact sound_of_load hload

/-! ### What an attempt has taken -/

namespace Attempt

/-- The transactions of the candidate while the attempt is under way. -/
def taken (a : Attempt) : List Transaction :=
  match a.result? with
  | none => a.candidate.transactions
  | some _ => []

variable {a : Attempt}

theorem taken_of_running (h : a.result? = none) : a.taken = a.candidate.transactions := by
  rw [taken, h]

theorem taken_of_ended {result : Except MiningError Block} (h : a.result? = some result) :
    a.taken = [] := by
  rw [taken, h]

/-- Every step of an attempt keeps the state in order. -/
theorem Effect.sound {s s' : NodeState} {a' : Attempt} (heffect : Effect s a s' a')
    (h : s.Sound a.taken) : s'.Sound a'.taken := by
  cases heffect with
  | idle => exact h
  | worked _ running worked =>
      rwa [taken_of_running worked.still, worked.transactions, ← taken_of_running running]
  | resynced _ now anew running still outcome =>
      rw [taken_of_running running] at h
      rw [taken_of_running still]
      cases anew with
      | false =>
          obtain ⟨-, hkept, hsound⟩ := h.resync_kept outcome
          rwa [hkept]
      | true =>
          obtain ⟨-, hfresh, hsound⟩ := h.resync_anew outcome
          rwa [hfresh]
  | unsynced _ now error running still outcome candidate =>
      rw [taken_of_running running] at h
      rw [taken_of_running still, candidate]
      exact h.resync_error outcome
  | completed _ round running _ _ _ candidate result =>
      rw [taken_of_running running] at h
      rw [taken_of_ended result, candidate]
      have htidy : s.Tidy (withPostSet a.candidate round).transactions := h.tidy
      exact h.of_sameLedger ⟨rfl, rfl, rfl⟩ htidy.complete
  | released _ error running result =>
      rw [taken_of_running running] at h
      rw [taken_of_ended result]
      exact h.of_sameLedger ⟨rfl, rfl, rfl⟩ h.tidy.release

/-- The first step of an attempt, which finds nothing taken. -/
theorem sound_start (setup : MinerSetup) {s : NodeState} (h : s.Sound []) (now : UInt64) :
    (start setup s now).1.Sound (start setup s now).2.taken := by
  refine h.of_sameLedger (sameLedger_start setup s now) ?_
  rcases start_of_sound setup h now with ⟨-, htidy, hended⟩ | ⟨-, htidy, hstage, hcandidate⟩
  · rwa [taken_of_ended hended]
  · rwa [taken_of_running (result?_eq_none hstage rfl), hcandidate]

end Attempt

namespace Node

/-- What the attempt under way has taken, if there is one. -/
def claimed (node : Node) : List Transaction :=
  match node.attempt with
  | none => []
  | some a => a.taken

variable {node : Node}

theorem mem_claimed {tx : Transaction} :
    tx ∈ node.claimed ↔
      ∃ candidate, node.candidate? = some candidate ∧ tx ∈ candidate.transactions := by
  rw [claimed, candidate?]
  cases node.attempt with
  | none => simp
  | some a =>
      dsimp only
      rw [Attempt.taken]
      cases a.result? with
      | none => simp
      | some result => simp

theorem claimed_of_mayBegin (h : node.mayBegin = true) : node.claimed = [] := by
  rw [mayBegin] at h
  rw [claimed]
  cases hattempt : node.attempt with
  | none => rfl
  | some a =>
      rw [hattempt] at h
      dsimp only at h
      split at h
      · rename_i e hended
        exact Attempt.taken_of_ended hended
      · exact absurd h Bool.false_ne_true

theorem claimed_of_waiting {block : Block} (h : node.minedBlock? = some block) :
    node.claimed = [] := by
  rw [minedBlock?] at h
  rw [claimed]
  cases hattempt : node.attempt with
  | none => rfl
  | some a =>
      rw [hattempt] at h
      dsimp only at h
      split at h
      · rename_i mined hended
        exact Attempt.taken_of_ended hended
      · exact absurd h (by simp)

/-! ### Every event keeps the state in order -/

/-- **Every event of a node keeps its state in order.** -/
theorem Effect.sound {event : NodeEvent} {next : Node} (heffect : Effect node event next)
    (h : node.state.Sound node.claimed) : next.state.Sound next.claimed := by
  cases heffect with
  | idle => exact h
  | submitted tx => exact h.submit tx
  | appended now block acceptable => exact h.append acceptable
  | began now may =>
      rw [claimed_of_mayBegin may] at h
      exact Attempt.sound_start node.setup h now
  | mined event a attempt effect =>
      rw [claimed, attempt] at h
      exact effect.sound h
  | accepted now block waiting acceptable =>
      rw [claimed_of_waiting waiting] at h
      exact h.append acceptable
  | rejected now block waiting =>
      rw [claimed_of_waiting waiting] at h
      exact h.of_sameLedger ⟨rfl, rfl, rfl⟩ (h.tidy.reinstate block)
  | saved archive => exact h

theorem sound_run (events : List NodeEvent) (h : node.state.Sound node.claimed) :
    (node.run events).state.Sound (node.run events).claimed :=
  run_induction (fun node event hnode => (step_effect node event).sound hnode) events h

/-- A node that starts fresh keeps its state in order. -/
theorem sound_run_fresh (identity : Identity) (peers : List Address) (p : Params)
    (archive : Option Archive) (events : List NodeEvent) :
    ((fresh identity peers p archive).run events).state.Sound
      ((fresh identity peers p archive).run events).claimed :=
  sound_run events (NodeState.sound_start p)

/-! ### What an observer sees -/

/-- What holds of a node whenever its state is free. -/
structure Consistent (node : Node) : Prop where
  distinct : (node.state.pool.pending.map (·.digest)).Nodup
  /-- Exactly the waiting transactions have a status. -/
  tracked : ∀ digest, digest ∈ node.state.pool.status ↔
    ∃ tx ∈ node.state.pool.pending, tx.digest = digest
  unmined : ∀ digest, node.state.pool.status? digest ≠ some .mined
  /-- Exactly those of the candidate are marked as being mined. -/
  mining : ∀ tx ∈ node.state.pool.pending, node.state.pool.status? tx.digest = some .mining ↔
    ∃ candidate, node.candidate? = some candidate ∧ tx ∈ candidate.transactions
  /-- No block of the chain holds a waiting transaction. -/
  fresh : ∀ tx ∈ node.state.pool.pending, ∀ block ∈ node.state.chain.blocks,
    ∀ other ∈ block.transactions, other.digest ≠ tx.digest
  signal : node.state.signal.value = node.state.chain.tipDigest
  link : node.state.chain.checkTipLink = .ok ()
  builds : ∀ miner now error,
    (node.state.buildCandidate miner now).2 ≠ .error (.integrity error)
  resyncs : ∀ block now error, (node.state.resync block now).2 ≠ .error (.integrity error)

theorem consistent_of_sound (h : node.state.Sound node.claimed) : node.Consistent where
  distinct := h.tidy.orderly.distinct
  tracked := by
    intro digest
    rw [Pool.mem_status_iff, h.tidy.orderly.tracked, Pool.digests, List.mem_map]
  unmined := h.tidy.orderly.unmined
  mining := by
    intro tx htx
    rw [h.tidy.mining tx htx, mem_claimed]
  fresh := by
    intro tx htx block hblock other hother hdigest
    exact h.not_recorded (Pool.digest_mem_digests htx) ⟨block, hblock, other, hother, hdigest⟩
  signal := h.anchored.signal
  link := h.anchored.link
  builds := NodeState.buildCandidate_ne_integrity h.anchored.link
  resyncs := NodeState.resync_ne_integrity h.anchored.link

/-- **Whatever happens to a node, fresh or restored, its state stays consistent.** -/
theorem run_consistent (identity : Identity) (peers : List Address) (p : Params) (s : NodeState)
    (archive : Option Archive) (events : List NodeEvent)
    (h : s = .start p ∨ ∃ saved : Archive, saved.load p = .ok (some s)) :
    ((ofState identity peers p s archive).run events).Consistent := by
  have hsound : s.Sound [] := by
    rcases h with rfl | ⟨saved, hload⟩
    · exact NodeState.sound_start p
    · exact NodeState.sound_of_load hload
  exact consistent_of_sound (sound_run events hsound)

theorem run_consistent_while_mining :
    ((ofState ⟨1, by decide, by decide⟩ [] {} (.start {}) none).run
      [.submit ⟨.zero, .zero, 1, 2⟩, .begin 3, .submit ⟨.zero, .zero, 4, 5⟩, .offer 6 .genesis,
        .mine .call, .save]).Consistent :=
  run_consistent _ _ _ _ _ _ (Or.inl rfl)

end Node

end AttestedLedger
