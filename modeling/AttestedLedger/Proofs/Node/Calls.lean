/-
What a call to mine leaves behind.

A call begins an attempt at a node that is free to begin one, and returns when the attempt has
a result.  Meanwhile anything may happen to the node: `during` lists it, the attempt's own
steps, transactions submitted and blocks offered by others.  `Returns` says that a list of
events leads an attempt to its result and stops there, and `Calls` that it does so from the
beginning.

Whatever the result, nothing stays marked as being mined, and the chain has grown by blocks
that others offered and by nothing else.  When there is no block, the account that
`NodeState.Accounts` keeps of every known transaction says what waits afterwards.
-/
import AttestedLedger.Proofs.Node.Admission

namespace AttestedLedger

namespace Node

/-! ### Calls -/

/-- The events carry the attempt under way to its result, and no further. -/
inductive Returns : Node → List NodeEvent → Except MiningError Block → Prop where
  | done {node : Node} {a : Attempt} {result : Except MiningError Block}
      (attempt : node.attempt = some a) (ended : a.result? = some result) : Returns node [] result
  | goesOn {node : Node} {a : Attempt} {event : NodeEvent} {rest : List NodeEvent}
      {result : Except MiningError Block} (attempt : node.attempt = some a)
      (running : a.result? = none) (later : Returns (node.step event) rest result) :
      Returns node (event :: rest) result

/-- A call to mine that begins at a reading of the clock and returns after the events `during`. -/
structure Calls (node : Node) (now : UInt64) (during : List NodeEvent)
    (result : Except MiningError Block) : Prop where
  may : node.mayBegin = true
  returns : (node.step (.begin now)).Returns during result

variable {node : Node} {now : UInt64} {during : List NodeEvent}
  {result : Except MiningError Block}

/-- At the end of a call the attempt has the result. -/
theorem Returns.ended (h : node.Returns during result) :
    ∃ a, (node.run during).attempt = some a ∧ a.result? = some result := by
  induction h with
  | done attempt ended => exact ⟨_, attempt, ended⟩
  | goesOn attempt running later ih => exact ih

theorem minedBlock?_of_running {a : Attempt} (hattempt : node.attempt = some a)
    (hrunning : a.result? = none) : node.minedBlock? = none := by
  rw [minedBlock?, hattempt]
  dsimp only
  rw [hrunning]

/-- A block is there after the last event, and not before. -/
theorem Returns.last {event : NodeEvent} {block : Block} :
    ∀ {before : List NodeEvent} {node : Node}, node.Returns (before ++ [event]) (.ok block) →
      (node.run before).minedBlock? = none ∧
        (node.run (before ++ [event])).minedBlock? = some block := by
  intro before
  induction before with
  | nil =>
      intro node h
      cases h with
      | goesOn attempt running later =>
          refine ⟨minedBlock?_of_running attempt running, ?_⟩
          obtain ⟨a, hattempt, hended⟩ := later.ended
          exact (minedBlock?_eq hattempt block).mpr hended
  | cons first rest ih =>
      intro node h
      cases h with
      | goesOn attempt running later => exact ih later

/-- While no block of the node's own awaits acceptance, what enters the chain was offered. -/
theorem offer_of_accepted? (hnone : node.minedBlock? = none) {event : NodeEvent} {block : Block}
    (h : node.accepted? event = some block) : ∃ reading, event = .offer reading block := by
  rw [accepted?] at h
  cases event with
  | offer reading offered =>
      dsimp only [offered?] at h
      split at h
      · obtain rfl := Option.some.inj h
        exact ⟨reading, rfl⟩
      · exact absurd h (by simp)
  | acceptMined reading =>
      dsimp only [offered?] at h
      rw [hnone] at h
      exact absurd h (by simp)
  | _ => exact absurd h (by simp [offered?])

/-- The blocks that enter the chain during a call were offered by others. -/
theorem Returns.offered (h : node.Returns during result) :
    ∀ block ∈ node.acceptances during, ∃ reading, .offer reading block ∈ during := by
  induction h with
  | done => exact fun block hin => absurd hin List.not_mem_nil
  | goesOn attempt running later ih =>
      intro block hin
      rcases List.mem_append.mp hin with hfirst | hlater
      · obtain ⟨reading, rfl⟩ := offer_of_accepted? (minedBlock?_of_running attempt running)
          (Option.mem_toList.mp hfirst)
        exact ⟨reading, List.mem_cons_self⟩
      · obtain ⟨reading, hoffer⟩ := ih block hlater
        exact ⟨reading, List.mem_cons_of_mem _ hoffer⟩

/-- The blocks of others that enter the chain during a call. -/
def rivals (node : Node) (now : UInt64) (during : List NodeEvent) : List Block :=
  (node.step (.begin now)).acceptances during

theorem blocks_after_call (node : Node) (now : UInt64) (during : List NodeEvent) :
    (node.run (.begin now :: during)).state.chain.blocks =
      node.state.chain.blocks ++ node.rivals now during := by
  have hbegun : (node.step (.begin now)).state.chain = node.state.chain :=
    ((step_effect node (.begin now)).sameLedger rfl).chain
  rw [rivals, ← hbegun]
  exact blocks_run (node.step (.begin now)) during

/-- A call during which nothing else happens leaves the ledger alone. -/
theorem sameLedger_call (node : Node) (now : UInt64) (actions : List AttemptEvent) :
    node.state.SameLedger (node.run (.begin now :: actions.map .mine)).state :=
  ((step_effect node (.begin now)).sameLedger rfl).trans
    (sameLedger_run_mine actions (node.step (.begin now)))

/-! ### What is left behind -/

/-- What a call leaves behind. -/
structure Leaves (node : Node) (now : UInt64) (during : List NodeEvent)
    (result : Except MiningError Block) : Prop where
  /-- Nothing is marked as being mined. -/
  unmarked : ∀ tx ∈ (node.run (.begin now :: during)).state.pool.pending,
    (node.run (.begin now :: during)).state.pool.status? tx.digest ≠ some .mining
  /-- The chain has grown by blocks of others only. -/
  chain : (node.run (.begin now :: during)).state.chain.blocks =
    node.state.chain.blocks ++ node.rivals now during
  offered : ∀ block ∈ node.rivals now during, ∃ reading, .offer reading block ∈ during
  /-- After an error those wait that waited before or were submitted and were not yet in the
  chain, less those that a block of others holds. -/
  waiting : ∀ error, result = .error error → ∀ digest,
    digest ∈ (node.run (.begin now :: during)).state.pool.digests ↔
      (digest ∈ node.state.pool.digests ∨
        digest ∈ (submissions during).map (·.digest) ∧
          ¬Recorded node.state.chain.blocks digest) ∧
        ¬Recorded (node.rivals now during) digest

/-- When a call returns, nothing is taken any more. -/
theorem Calls.claimed_after (h : node.Calls now during result) :
    (node.run (.begin now :: during)).claimed = [] := by
  obtain ⟨a, hattempt, hended⟩ := h.returns.ended
  rw [claimed, show (node.run (.begin now :: during)).attempt = some a from hattempt]
  exact Attempt.taken_of_ended hended

/-- When it returns an error, nothing awaits acceptance. -/
theorem Calls.awaiting_after {error : MiningError} (h : node.Calls now during (.error error)) :
    (node.run (.begin now :: during)).awaiting = [] := by
  obtain ⟨a, hattempt, hended⟩ := h.returns.ended
  rw [awaiting_of_attempt (show (node.run (.begin now :: during)).attempt = some a from hattempt)]
  exact Attempt.finished_of_error hended

/-- What waits after a call that returned an error. -/
theorem Calls.mem_digests_iff {error : MiningError} (h : node.Calls now during (.error error))
    (hsound : node.state.Sound node.claimed) (digest : Digest) :
    digest ∈ (node.run (.begin now :: during)).state.pool.digests ↔
      (digest ∈ node.state.pool.digests ∨
        digest ∈ (submissions during).map (·.digest) ∧
          ¬Recorded node.state.chain.blocks digest) ∧
        ¬Recorded (node.rivals now during) digest := by
  have haccounts := accounts_run (.begin now :: during) hsound (accounts_self hsound)
  have hafter := sound_run (.begin now :: during) hsound
  have hblocks := blocks_after_call node now during
  rw [submissions_cons_of_quiet rfl, awaiting_of_mayBegin h.may, h.claimed_after,
    h.awaiting_after] at haccounts
  rw [h.claimed_after] at hafter
  generalize node.run (.begin now :: during) = after at haccounts hafter hblocks ⊢
  have hfinal := hafter.indexed.finalized digest
  rw [hblocks, recorded_append] at hfinal
  constructor
  · intro hin
    have hunrecorded := hafter.not_recorded hin
    rw [hblocks, recorded_append, not_or] at hunrecorded
    refine ⟨?_, hunrecorded.2⟩
    rcases haccounts.pending digest hin with ((hwaits | hdone) | hawaiting) | hsubmitted
    · exact Or.inl hwaits
    · exact absurd ((hsound.indexed.finalized digest).mp hdone) hunrecorded.1
    · exact absurd hawaiting List.not_mem_nil
    · exact Or.inr ⟨hsubmitted, hunrecorded.1⟩
  · rintro ⟨hknown, hunrivalled⟩
    have hunrecorded : ¬Recorded node.state.chain.blocks digest :=
      hknown.elim hsound.not_recorded And.right
    have hcovered := haccounts.covered digest
      (hknown.imp (fun hwaits => Or.inl (Or.inl hwaits)) And.left)
    rcases hcovered with hin | hawaiting | hdone
    · exact hin
    · exact absurd hawaiting List.not_mem_nil
    · exact absurd (hfinal.mp hdone) (not_or_intro hunrecorded hunrivalled)

/-- **A call strands no transaction**, whatever its result and whatever happened meanwhile, at a
node that started fresh or was restored from an archive. -/
theorem call_leaves (identity : Identity) (peers : List Address) (p : Params) (s : NodeState)
    (archive : Option Archive) (before : List NodeEvent)
    (hstart : s = .start p ∨ ∃ saved : Archive, saved.load p = .ok (some s))
    (h : ((ofState identity peers p s archive).run before).Calls now during result) :
    ((ofState identity peers p s archive).run before).Leaves now during result := by
  have hbefore : ((ofState identity peers p s archive).run before).state.Sound
      ((ofState identity peers p s archive).run before).claimed :=
    sound_run before (NodeState.sound_of_origin hstart)
  generalize (ofState identity peers p s archive).run before = node at h hbefore ⊢
  refine ⟨fun tx htx hmining => ?_, blocks_after_call node now during, h.returns.offered, ?_⟩
  · have hafter := (sound_run (.begin now :: during) hbefore).tidy
    rw [h.claimed_after] at hafter
    exact absurd ((hafter.mining tx htx).mp hmining) List.not_mem_nil
  · rintro error rfl
    exact h.mem_digests_iff hbefore

/-! ### A call that has nobody to ask -/

/-- What happens during a call that asks nobody and loses its search, while a transaction is
submitted. -/
def lostEvents (tx : Transaction) (settled : UInt64) : List NodeEvent :=
  [.submit tx, .mine .call, .mine .lose, .mine (.proceed settled)]

theorem calls_lost (hmay : node.mayBegin = true) (hsound : node.state.Sound node.claimed)
    (hpeers : node.setup.peers = []) (hwaiting : node.state.pool.pending ≠ []) (tx : Transaction)
    (now settled : UInt64) :
    node.Calls now (lostEvents tx settled) (.error .interrupted) := by
  rw [claimed_of_mayBegin hmay] at hsound
  refine ⟨hmay, ?_⟩
  have hbegun := step_begin hmay now
  rcases Attempt.start_of_sound node.setup hsound now with ⟨hdry, -, -⟩ | ⟨-, -, hstage, -⟩
  · exact absurd hdry hwaiting
  have hattempt : (node.step (.begin now)).attempt =
      some (Attempt.start node.setup node.state now).2 := by
    rw [hbegun]
  have hsetup : (node.step (.begin now)).setup.peers = [] := by
    rw [hbegun]
    exact hpeers
  generalize node.step (.begin now) = begun, (Attempt.start node.setup node.state now).2 = a
    at hattempt hsetup hstage ⊢
  have hrunning : a.result? = none := Attempt.result?_eq_none hstage rfl
  have hgiven : (begun.step (.submit tx)).attempt = some a := hattempt
  refine .goesOn hattempt hrunning (.goesOn hgiven hrunning ?_)
  rw [step_mine hgiven (Attempt.step_call_of_no_peers _ hsetup hstage)]
  -- the round is short, so the search goes on until it is lost
  exact .goesOn rfl rfl (.goesOn rfl rfl (.done rfl rfl))

/-- The events of a node that mines a transaction alone, has the block in its chain, and is given
another transaction. -/
def recordEvents (tx other : Transaction) : List NodeEvent :=
  finishEvents tx ++ [.acceptMined 4, .submit other]

/-- Then the first transaction is in the chain, and the other one waits. -/
theorem recorded_solo (archive : Option Archive) {tx other : Transaction}
    (hother : other.digest ≠ tx.digest) :
    ∃ node : Node, (fresh ⟨1, by decide, by decide⟩ [] .easiest archive).run
        (recordEvents tx other) = node ∧
      node.mayBegin = true ∧ node.state.pool.pending ≠ [] ∧
      Recorded node.state.chain.blocks tx.digest := by
  obtain ⟨settling, block, hrun, hchain, -, hfinished, hok, honly⟩ := mined_solo archive tx
  have hconserves := run_conserves ⟨1, by decide, by decide⟩ [] .easiest archive
    (recordEvents tx other)
  have hledger := sameLedger_mine settling (.proceed 4)
  generalize hfinishing : settling.step (.mine (.proceed 4)) = finished at hfinished hledger
  have haccept : finished.state.acceptBlock 4 block = .ok (finished.state.append block) := by
    refine NodeState.acceptBlock_eq_ok_iff.mpr ⟨?_, rfl⟩
    rw [hledger.rules, hledger.chain]
    exact hok
  have hreached : (fresh ⟨1, by decide, by decide⟩ [] .easiest archive).run
      (recordEvents tx other) = { finished with
        state := ((finished.state.append block).submit other).1
        attempt := none } := by
    rw [recordEvents, finishEvents, List.append_assoc, run_append, hrun]
    show ((settling.step (.mine (.proceed 4))).step (.acceptMined 4)).step (.submit other) = _
    rw [hfinishing, step_acceptMined hfinished haccept, step]
  have hblocks : ((finished.state.append block).submit other).1.chain.blocks =
      [.genesis, block] := by
    rw [(NodeState.sameLedger_submit (finished.state.append block) other).chain]
    show (finished.state.chain.push block).blocks = _
    rw [Chain.blocks_push, hledger.chain, hchain]
    rfl
  have hrecorded : ∀ digest, Recorded [.genesis, block] digest ↔
      digest ∈ block.transactions.map (·.digest) := by
    intro digest
    rw [← List.singleton_append, recorded_append, recorded_singleton, recorded_singleton]
    exact or_iff_right List.not_mem_nil
  refine ⟨_, hreached, rfl, ?_, ?_⟩
  · rw [hreached] at hconserves
    have hwaits := (hconserves.waiting rfl other.digest).mpr ⟨by
      simp [recordEvents, finishEvents, submissions, NodeEvent.submission?], ?_⟩
    · intro hdry
      rw [Pool.digests, hdry] at hwaits
      exact absurd hwaits List.not_mem_nil
    · rw [hblocks, hrecorded]
      intro hin
      obtain ⟨t, ht, hdigest⟩ := List.mem_map.mp hin
      exact hother (hdigest.symm.trans (honly t ht))
  · rw [hblocks, hrecorded]
    obtain ⟨t, ht⟩ := List.exists_mem_of_ne_nil _ hok.nonempty
    exact honly t ht ▸ List.mem_map_of_mem ht

/-- A transaction that is in the chain is submitted again during a call that loses its search. -/
theorem calls_resubmitting :
    ∃ node : Node, (fresh ⟨1, by decide, by decide⟩ [] .easiest none).run
        (recordEvents ⟨.zero, .zero, 1, 2⟩ ⟨.zero, .zero, 5, 6⟩) = node ∧
      node.Calls 8 (lostEvents ⟨.zero, .zero, 1, 2⟩ 9) (.error .interrupted) ∧
      Recorded node.state.chain.blocks (Transaction.digest ⟨.zero, .zero, 1, 2⟩) := by
  have hother :
      Transaction.digest ⟨.zero, .zero, 5, 6⟩ ≠ Transaction.digest ⟨.zero, .zero, 1, 2⟩ := by
    decide +kernel
  have hsound := sound_run_fresh ⟨1, by decide, by decide⟩ [] .easiest none
    (recordEvents ⟨.zero, .zero, 1, 2⟩ ⟨.zero, .zero, 5, 6⟩)
  have hsetup := setup_run (fresh ⟨1, by decide, by decide⟩ [] .easiest none)
    (recordEvents ⟨.zero, .zero, 1, 2⟩ ⟨.zero, .zero, 5, 6⟩)
  obtain ⟨node, hrun, hmay, hwaiting, hrecorded⟩ := recorded_solo none hother
  rw [hrun] at hsound hsetup
  refine ⟨node, hrun, calls_lost hmay hsound ?_ hwaiting _ _ _, hrecorded⟩
  rw [hsetup]
  rfl

theorem call_leaves_lost :
    ∃ node : Node, (fresh ⟨1, by decide, by decide⟩ [] .easiest none).run
        (recordEvents ⟨.zero, .zero, 1, 2⟩ ⟨.zero, .zero, 5, 6⟩) = node ∧
      node.Calls 8 (lostEvents ⟨.zero, .zero, 1, 2⟩ 9) (.error .interrupted) ∧
      node.Leaves 8 (lostEvents ⟨.zero, .zero, 1, 2⟩ 9) (.error .interrupted) := by
  obtain ⟨node, rfl, hcalls, -⟩ := calls_resubmitting
  exact ⟨_, rfl, hcalls, call_leaves _ _ _ _ _ _ (Or.inl rfl) hcalls⟩

/-- What was in the chain before a call does not wait after it, though it was submitted meanwhile
and no block of others holds it. -/
theorem resubmitted_not_waiting :
    ∃ node : Node, (fresh ⟨1, by decide, by decide⟩ [] .easiest none).run
        (recordEvents ⟨.zero, .zero, 1, 2⟩ ⟨.zero, .zero, 5, 6⟩) = node ∧
      node.Calls 8 (lostEvents ⟨.zero, .zero, 1, 2⟩ 9) (.error .interrupted) ∧
      ¬∀ digest, digest ∈ (node.run (.begin 8 ::
            lostEvents ⟨.zero, .zero, 1, 2⟩ 9)).state.pool.digests ↔
          (digest ∈ node.state.pool.digests ∨
            digest ∈ (submissions (lostEvents ⟨.zero, .zero, 1, 2⟩ 9)).map (·.digest)) ∧
          ¬Recorded (node.rivals 8 (lostEvents ⟨.zero, .zero, 1, 2⟩ 9)) digest := by
  have hsound := sound_run_fresh ⟨1, by decide, by decide⟩ [] .easiest none
    (recordEvents ⟨.zero, .zero, 1, 2⟩ ⟨.zero, .zero, 5, 6⟩)
  obtain ⟨node, hrun, hcalls, hrecorded⟩ := calls_resubmitting
  rw [hrun] at hsound
  refine ⟨node, hrun, hcalls, fun hclaim => ?_⟩
  have hafter := sound_run (.begin 8 :: lostEvents ⟨.zero, .zero, 1, 2⟩ 9) hsound
  have hblocks := blocks_after_call node 8 (lostEvents ⟨.zero, .zero, 1, 2⟩ 9)
  refine hafter.not_recorded ((hclaim _).mpr ⟨Or.inr ?_, ?_⟩)
    (hblocks ▸ recorded_append.mpr (Or.inl hrecorded))
  · exact List.mem_singleton_self _
  · -- nothing was offered
    rintro ⟨block, hrival, -⟩
    obtain ⟨reading, hoffer⟩ := hcalls.returns.offered block hrival
    exact absurd hoffer (by simp [lostEvents])

end Node

end AttestedLedger
