/-
When a transaction is new to a node.

A submission is answered by what the pool and the chain hold: a transaction that waits or is
in the chain is known, and every other one is added and passed on to the peers.  `additions`
lists what a run adds, as often as it does, so that a transaction is new at most once when
the list repeats nothing.

There is one gap.  When an attempt completes, the transactions of the finished block leave
the pool, and the chain learns of them only when the block is accepted.  In between they are
known to neither (`OnlyAwaiting`), and one that is submitted again is added again.
`new_once_iff` says that this is the only way in which a transaction is new twice.
-/
import AttestedLedger.Node.Serving
import AttestedLedger.Proofs.Node.Conservation
import AttestedLedger.Proofs.Node.Production

namespace AttestedLedger

namespace NodeState

/-- The transaction of this digest waits or is in the chain. -/
def Knows (s : NodeState) (digest : Digest) : Prop :=
  digest ∈ s.pool.digests ∨ s.chain.isFinalized digest = true

variable {s : NodeState} {tx : Transaction}

theorem submit_of_knows (horderly : s.pool.Orderly) (h : s.Knows tx.digest) :
    ∃ status, s.submit tx = (s, .ignored status) := by
  rcases submit_cases s tx with ⟨-, heq⟩ | ⟨status, -, heq⟩ | ⟨hfinal, hnone, -⟩
  · exact ⟨.mined, heq⟩
  · exact ⟨status, heq⟩
  · rcases h with hin | hdone
    · exact absurd hin (horderly.not_mem_of_status?_eq_none hnone)
    · rw [hfinal] at hdone
      exact absurd hdone Bool.false_ne_true

theorem submit_of_not_knows (horderly : s.pool.Orderly) (h : ¬s.Knows tx.digest) :
    ∃ t, s.submit tx = (t, .added) := by
  rw [Knows, not_or] at h
  rcases submit_cases s tx with ⟨hfinal, -⟩ | ⟨status, hstatus, -⟩ | ⟨-, -, heq⟩
  · exact absurd hfinal h.2
  · refine absurd ?_ h.1
    rw [← horderly.tracked, hstatus, Option.isSome_some]
  · exact ⟨_, heq⟩

/-- What is not known goes to the end of the pool. -/
theorem pending_submit_of_not_knows (horderly : s.pool.Orderly) (h : ¬s.Knows tx.digest) :
    (s.submit tx).1.pool.pending = s.pool.pending ++ [tx] := by
  rw [Knows, not_or] at h
  rcases submit_cases s tx with ⟨hfinal, -⟩ | ⟨status, hstatus, -⟩ | ⟨-, -, heq⟩
  · exact absurd hfinal h.2
  · refine absurd ?_ h.1
    rw [← horderly.tracked, hstatus, Option.isSome_some]
  · rw [heq]

end NodeState

namespace Node

/-- The transaction that an event adds to the pool as a new one. -/
def addition? (node : Node) : NodeEvent → Option Transaction
  | .submit tx => if (node.state.submit tx).2 = .added then some tx else none
  | _ => none

/-- The transactions that are new to the node in the course of events, each as often as it is. -/
def additions (node : Node) : List NodeEvent → List Transaction
  | [] => []
  | event :: rest => (node.addition? event).toList ++ (node.step event).additions rest

/-- The transaction of this digest is in the block that awaits acceptance and nowhere else. -/
def OnlyAwaiting (node : Node) (digest : Digest) : Prop :=
  digest ∈ node.awaiting.map (·.digest) ∧ ¬node.state.Knows digest

/-- How a node answers submissions. -/
structure Answers (node : Node) : Prop where
  /-- What is known is ignored, which changes nothing, and not passed on. -/
  known : ∀ tx, node.state.Knows tx.digest →
    (∃ status, (node.state.submit tx).2 = .ignored status) ∧ node.step (.submit tx) = node ∧
    ∀ now, node.handle now (.transaction tx) = (node, ⟨.ack, none⟩)
  /-- What is not known is added, and passed on. -/
  new : ∀ tx, ¬node.state.Knows tx.digest →
    (node.state.submit tx).2 = .added ∧
    ∀ now, (node.handle now (.transaction tx)).2 = ⟨.ack, some tx⟩

variable {node : Node}

theorem answers_of_sound (h : node.state.Sound node.claimed) : node.Answers where
  known := by
    intro tx hknows
    obtain ⟨status, hsubmit⟩ := NodeState.submit_of_knows h.tidy.orderly hknows
    refine ⟨⟨status, by rw [hsubmit]⟩, ?_, fun now => ?_⟩
    · rw [step, hsubmit]
    · rw [handle, hsubmit]
  new := by
    intro tx hknows
    obtain ⟨state, hsubmit⟩ := NodeState.submit_of_not_knows h.tidy.orderly hknows
    refine ⟨by rw [hsubmit], fun now => ?_⟩
    rw [handle, hsubmit]

/-! ### What a run adds -/

theorem additions_append (node : Node) (events more : List NodeEvent) :
    node.additions (events ++ more) = node.additions events ++ (node.run events).additions more := by
  induction events generalizing node with
  | nil => rfl
  | cons event rest ih =>
      rw [List.cons_append, additions, additions, ih, List.append_assoc]
      rfl

theorem additions_concat (node : Node) (events : List NodeEvent) (event : NodeEvent) :
    node.additions (events ++ [event]) =
      node.additions events ++ ((node.run events).addition? event).toList := by
  rw [additions_append, additions, additions, List.append_nil]

theorem Answers.addition?_of_knows (h : node.Answers) {tx : Transaction}
    (hknows : node.state.Knows tx.digest) : node.addition? (.submit tx) = none := by
  obtain ⟨⟨status, hignored⟩, -⟩ := h.known tx hknows
  rw [addition?, hignored, if_neg (by simp)]

theorem Answers.addition?_of_not_knows (h : node.Answers) {tx : Transaction}
    (hknows : ¬node.state.Knows tx.digest) : node.addition? (.submit tx) = some tx := by
  rw [addition?, (h.new tx hknows).1, if_pos rfl]

/-- Nothing is added but what is submitted and not known. -/
theorem Answers.eq_submit_of_addition? (h : node.Answers) {event : NodeEvent} {tx : Transaction}
    (hadded : node.addition? event = some tx) :
    event = .submit tx ∧ ¬node.state.Knows tx.digest := by
  cases event with
  | submit other =>
      by_cases hknows : node.state.Knows other.digest
      · rw [h.addition?_of_knows hknows] at hadded
        exact absurd hadded (by simp)
      · rw [h.addition?_of_not_knows hknows] at hadded
        obtain rfl := Option.some.inj hadded
        exact ⟨rfl, hknows⟩
  | _ => exact absurd hadded (by simp [addition?])

/-- Every event keeps the account, with what it adds. -/
theorem accounts_addition (event : NodeEvent) {known : Digest → Prop}
    (hsound : node.state.Sound node.claimed)
    (h : node.state.Accounts known node.claimed node.awaiting) :
    (node.step event).state.Accounts
      (fun digest => known digest ∨ digest ∈ (node.addition? event).toList.map (·.digest))
      (node.step event).claimed (node.step event).awaiting := by
  have hstep := (step_effect node event).accounts hsound h
  cases event with
  | submit tx =>
      have hanswers := answers_of_sound hsound
      by_cases hknows : node.state.Knows tx.digest
      · rw [(hanswers.known tx hknows).2.1, hanswers.addition?_of_knows hknows]
        exact h.congr fun digest => by simp
      · rw [hanswers.addition?_of_not_knows hknows]
        exact hstep
  | _ => exact hstep

theorem accounts_additions :
    ∀ (events : List NodeEvent) {node : Node} {known : Digest → Prop},
      node.state.Sound node.claimed →
      node.state.Accounts known node.claimed node.awaiting →
      (node.run events).state.Accounts
        (fun digest => known digest ∨ digest ∈ (node.additions events).map (·.digest))
        (node.run events).claimed (node.run events).awaiting := by
  intro events
  induction events with
  | nil =>
      intro node known _ h
      exact h.congr fun digest => by simp [additions]
  | cons event rest ih =>
      intro node known hsound h
      have hrest := ih ((step_effect node event).sound hsound) (accounts_addition event hsound h)
      exact hrest.congr fun digest => by rw [additions, List.map_append, List.mem_append, or_assoc]

/-- A state in order accounts for what it knows and what awaits acceptance. -/
theorem accounts_self (h : node.state.Sound node.claimed) :
    node.state.Accounts
      (fun digest => node.state.Knows digest ∨ digest ∈ node.awaiting.map (·.digest))
      node.claimed node.awaiting where
  covered := by
    rintro digest ((hin | hfinal) | hawaiting)
    · exact Or.inl hin
    · exact Or.inr (Or.inr hfinal)
    · exact Or.inr (Or.inl hawaiting)
  pending := fun digest hin => Or.inl (Or.inl hin)
  taken := fun tx htx => Or.inl ((h.tidy.held tx htx).imp Pool.digest_mem_digests id)
  finished := fun tx htx => Or.inr (List.mem_map_of_mem htx)

/-- What a run adds is known at its end, or only awaits acceptance. -/
theorem knows_iff_of_added (h : node.state.Sound node.claimed) (events : List NodeEvent)
    {tx : Transaction} (htx : tx ∈ node.additions events) :
    (node.run events).state.Knows tx.digest ↔ ¬(node.run events).OnlyAwaiting tx.digest := by
  have haccounts := accounts_additions events h (accounts_self h)
  refine ⟨fun hknows hawaiting => hawaiting.2 hknows, fun hnot => ?_⟩
  rcases haccounts.covered tx.digest (Or.inr (List.mem_map_of_mem htx)) with
    hin | hawaiting | hfinal
  · exact Or.inl hin
  · exact Classical.byContradiction fun hunknown => hnot ⟨hawaiting, hunknown⟩
  · exact Or.inr hfinal

/-- What only awaits acceptance is what was added before and is not known. -/
theorem onlyAwaiting_iff (identity : Identity) (peers : List Address) (p : Params)
    (archive : Option Archive) (events : List NodeEvent) (digest : Digest) :
    ((fresh identity peers p archive).run events).OnlyAwaiting digest ↔
      digest ∈ ((fresh identity peers p archive).additions events).map (·.digest) ∧
        ¬((fresh identity peers p archive).run events).state.Knows digest := by
  have hsound : (fresh identity peers p archive).state.Sound
      (fresh identity peers p archive).claimed := NodeState.sound_start p
  have haccounts := accounts_additions events hsound (NodeState.accounts_start p)
  constructor
  · rintro ⟨hawaiting, hunknown⟩
    obtain ⟨tx, htx, rfl⟩ := List.mem_map.mp hawaiting
    exact ⟨(haccounts.finished tx htx).resolve_left id, hunknown⟩
  · rintro ⟨hadded, hunknown⟩
    obtain ⟨tx, htx, rfl⟩ := List.mem_map.mp hadded
    rw [knows_iff_of_added hsound events htx, Classical.not_not] at hunknown
    exact hunknown

/-! ### The gap -/

/-- **The event that finishes a block opens the gap** for those of its transactions that the chain
does not hold. -/
theorem Effect.onlyAwaiting_of_finishes {event : NodeEvent} {next : Node} {block : Block}
    (heffect : Effect node event next) (hsound : node.state.Sound node.claimed)
    (hunfinished : node.minedBlock? = none) (hfinished : next.minedBlock? = some block)
    {tx : Transaction} (htx : tx ∈ block.transactions)
    (hfresh : node.state.chain.isFinalized tx.digest = false) : next.OnlyAwaiting tx.digest := by
  have hin : tx.digest ∈ block.transactions.map (·.digest) := List.mem_map_of_mem htx
  refine ⟨awaiting_of_waiting hfinished ▸ hin, ?_⟩
  obtain ⟨mined, a, rfl, hattempt, hrunning, -⟩ := heffect.finishes hunfinished hfinished
  cases heffect with
  | idle =>
      rw [hunfinished] at hfinished
      exact absurd hfinished (by simp)
  | mined _ b hsame effect =>
      obtain rfl : a = b := Option.some.inj (hattempt.symm.trans hsame)
      have hdone := (minedBlock?_eq rfl block).mp hfinished
      obtain ⟨⟨-, hstate⟩, -⟩ := effect.finished hrunning hdone
      rintro (hwaits | hfinal)
      · rw [hstate] at hwaits
        exact (hsound.tidy.orderly.mem_digests_finalize.mp hwaits).2 hin
      · rw [hstate] at hfinal
        exact absurd (hfresh.symm.trans hfinal) Bool.false_ne_true

/-- The events of a node that mines a transaction alone, up to the finished block. -/
def finishEvents (tx : Transaction) : List NodeEvent :=
  soloEvents tx 3 .zero ++ [.mine (.proceed 4)]

/-- What a node finishes that mines a transaction alone: an acceptable block with nothing else. -/
theorem mined_solo (archive : Option Archive) (tx : Transaction) :
    ∃ settling block,
      (fresh ⟨1, by decide, by decide⟩ [] .easiest archive).run (soloEvents tx 3 .zero) = settling ∧
      settling.state.chain = .start ∧ settling.minedBlock? = none ∧
      (settling.step (.mine (.proceed 4))).minedBlock? = some block ∧
      settling.state.rules.Acceptable settling.state.chain 4 block ∧
      ∀ other ∈ block.transactions, other.digest = tx.digest := by
  obtain ⟨settling, hrun, hchain, hunfinished, block, hfinished⟩ :=
    mines_solo ⟨1, by decide, by decide⟩ [] .easiest archive Params.admits_easiest tx 3 .zero 4
  have hsound := sound_run_fresh ⟨1, by decide, by decide⟩ [] .easiest archive
    (soloEvents tx 3 .zero)
  have haccounts := accounts_run_fresh ⟨1, by decide, by decide⟩ [] .easiest archive
    (finishEvents tx)
  have honTrack : ((fresh ⟨1, by decide, by decide⟩ [] .easiest archive).run
      (soloEvents tx 3 .zero)).OnTrack 4 :=
    onTrack_run _ _ _ _ _ (by simp [soloEvents, NodeEvent.reading?])
      (by rw [hrun, hchain]; exact distinguished_start)
  rw [finishEvents, run_concat] at haccounts
  rw [hrun] at hsound haccounts honTrack
  obtain ⟨mined, a, -, hattempt, hrunning, hdone⟩ :=
    (step_effect settling (.mine (.proceed 4))).finishes hunfinished hfinished
  refine ⟨settling, block, hrun, hchain, hunfinished, hfinished,
    (honTrack.ready a hattempt).acceptable hrunning hsound.indexed hdone, fun other hother => ?_⟩
  -- nothing but the one transaction was submitted
  have hknown := haccounts.finished other (awaiting_of_waiting hfinished ▸ hother)
  simpa [submissions, soloEvents, NodeEvent.submission?] using hknown

/-- A node that has mined a transaction alone holds it neither in the pool nor in the chain until
the block is offered. -/
theorem onlyAwaiting_solo (archive : Option Archive) (tx : Transaction) :
    ((fresh ⟨1, by decide, by decide⟩ [] .easiest archive).run (finishEvents tx)).OnlyAwaiting
      tx.digest := by
  obtain ⟨settling, block, hrun, -, hunfinished, hfinished, hok, honly⟩ := mined_solo archive tx
  have hsound := sound_run_fresh ⟨1, by decide, by decide⟩ [] .easiest archive
    (soloEvents tx 3 .zero)
  rw [finishEvents, run_concat]
  rw [hrun] at hsound ⊢
  obtain ⟨other, hother⟩ := List.exists_mem_of_ne_nil _ hok.nonempty
  exact honly other hother ▸ (step_effect settling (.mine (.proceed 4))).onlyAwaiting_of_finishes
    hsound hunfinished hfinished hother (hok.fresh other hother)

/-! ### New at most once -/

/-- One more event repeats nothing unless it submits what only awaits acceptance. -/
theorem nodup_additions_concat_iff (identity : Identity) (peers : List Address) (p : Params)
    (archive : Option Archive) (events : List NodeEvent) (event : NodeEvent) :
    (((fresh identity peers p archive).additions (events ++ [event])).map (·.digest)).Nodup ↔
      (((fresh identity peers p archive).additions events).map (·.digest)).Nodup ∧
        ∀ tx, event = .submit tx →
          ¬((fresh identity peers p archive).run events).OnlyAwaiting tx.digest := by
  have hanswers := answers_of_sound (sound_run_fresh identity peers p archive events)
  have hgap := onlyAwaiting_iff identity peers p archive events
  rw [additions_concat, List.map_append]
  generalize (fresh identity peers p archive).run events = reached at hanswers hgap ⊢
  cases hadded : reached.addition? event with
  | none =>
      refine ⟨fun h => ⟨by simpa using h, ?_⟩, fun h => by simpa using h.1⟩
      rintro tx rfl hawaiting
      rw [hanswers.addition?_of_not_knows hawaiting.2] at hadded
      exact absurd hadded (by simp)
  | some tx =>
      obtain ⟨rfl, hknows⟩ := hanswers.eq_submit_of_addition? hadded
      have hagain : reached.OnlyAwaiting tx.digest ↔
          tx.digest ∈ ((fresh identity peers p archive).additions events).map (·.digest) :=
        (hgap tx.digest).trans (and_iff_left hknows)
      have honly : (∀ other, NodeEvent.submit tx = .submit other →
          ¬reached.OnlyAwaiting other.digest) ↔ ¬reached.OnlyAwaiting tx.digest := by
        simp
      rw [honly, hagain, Option.toList_some, List.map_singleton, List.nodup_append_comm,
        List.singleton_append, List.nodup_cons, and_comm]

/-- **A transaction is new to a node once, unless it is submitted again while it only awaits
acceptance**, in which case it is new again.  While it waits, is being mined or is in the chain,
submitting it changes nothing and is not passed on. -/
theorem new_once_iff (identity : Identity) (peers : List Address) (p : Params)
    (archive : Option Archive) (events : List NodeEvent) :
    ((fresh identity peers p archive).run events).Answers ∧
      ((((fresh identity peers p archive).additions events).map (·.digest)).Nodup ↔
        ∀ before tx, before ++ [.submit tx] <+: events →
          ¬((fresh identity peers p archive).run before).OnlyAwaiting tx.digest) := by
  refine ⟨answers_of_sound (sound_run_fresh identity peers p archive events), ?_⟩
  induction events using List.reverseRecOn with
  | nil => simp [additions]
  | append_singleton events event ih =>
      rw [nodup_additions_concat_iff, ih]
      constructor
      · rintro ⟨hearlier, hlast⟩ before tx hearly
        rcases List.prefix_concat_iff.mp hearly with heq | hinside
        · obtain ⟨rfl, hevent⟩ := List.append_inj' heq rfl
          exact hlast tx (List.singleton_inj.mp hevent).symm
        · exact hearlier before tx hinside
      · intro h
        refine ⟨fun before tx hearly => h before tx (hearly.trans (List.prefix_append _ _)), ?_⟩
        rintro tx rfl
        exact h events tx (List.prefix_refl _)

/-- The transaction that the node mined alone is submitted again before the block is offered. -/
theorem new_twice_solo :
    ¬(((fresh ⟨1, by decide, by decide⟩ [] .easiest none).additions
      (finishEvents ⟨.zero, .zero, 1, 2⟩ ++ [.submit ⟨.zero, .zero, 1, 2⟩])).map
        (·.digest)).Nodup := by
  rw [nodup_additions_concat_iff]
  rintro ⟨-, hlast⟩
  exact hlast _ rfl (onlyAwaiting_solo none _)

end Node

end AttestedLedger
