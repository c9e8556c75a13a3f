/-
What one event can do to a node.

`Node.step` is opened here and nowhere else.  `Node.Effect` lists what an event can do to
the node, and leaves what a step of the attempt does to `Attempt.Effect`.  An invariant of
a run is then one case for each constructor, and `run_induction` lifts it to all runs.

`acceptances` lists the blocks that a run adds to the chain; the signal is raised once for
each of them (`run_accepted`).
-/
import AttestedLedger.Node.Step
import AttestedLedger.Proofs.Mining.Step

namespace AttestedLedger

/-! ### Events of a node -/

/-- The transaction an event submits. -/
def NodeEvent.submission? : NodeEvent → Option Transaction
  | .submit tx => some tx
  | _ => none

/-- The reading of the clock an event takes. -/
def NodeEvent.reading? : NodeEvent → Option UInt64
  | .offer now _ | .begin now | .acceptMined now | .mine (.proceed now) => some now
  | _ => none

namespace Node

/-- The candidate of the attempt under way. -/
def candidate? (node : Node) : Option Block :=
  match node.attempt with
  | none => none
  | some attempt =>
    match attempt.result? with
    | none => some attempt.candidate
    | some _ => none

/-- What an event can do to a node. -/
inductive Effect (node : Node) : NodeEvent → Node → Prop where
  | idle (event : NodeEvent) (quiet : event.submission? = none) : Effect node event node
  | submitted (tx : Transaction) :
      Effect node (.submit tx) { node with state := (node.state.submit tx).1 }
  | appended (now : UInt64) (block : Block)
      (acceptable : node.state.rules.Acceptable node.state.chain now block) :
      Effect node (.offer now block) { node with state := node.state.append block }
  | began (now : UInt64) (may : node.mayBegin = true) :
      Effect node (.begin now)
        { node with
          state := (Attempt.start node.setup node.state now).1
          attempt := some (Attempt.start node.setup node.state now).2 }
  | mined (event : AttemptEvent) (a : Attempt) (attempt : node.attempt = some a)
      (effect : Attempt.Effect node.state a (a.step node.setup node.state event).1
        (a.step node.setup node.state event).2) :
      Effect node (.mine event)
        { node with
          state := (a.step node.setup node.state event).1
          attempt := some (a.step node.setup node.state event).2 }
  | accepted (now : UInt64) (block : Block) (waiting : node.minedBlock? = some block)
      (acceptable : node.state.rules.Acceptable node.state.chain now block) :
      Effect node (.acceptMined now)
        { node with state := node.state.append block, attempt := none }
  | rejected (now : UInt64) (block : Block) (waiting : node.minedBlock? = some block)
      (unacceptable : ¬node.state.rules.Acceptable node.state.chain now block) :
      Effect node (.acceptMined now)
        { node with state := node.state.reinstate block, attempt := none }
  | saved (archive : Option Archive) : Effect node .save { node with archive }

/-- **Every event of a node has one of the listed effects.** -/
theorem step_effect (node : Node) (event : NodeEvent) : Effect node event (node.step event) := by
  cases event with
  | submit tx => exact .submitted tx
  | offer now block =>
      rw [step]
      cases haccept : node.state.acceptBlock now block with
      | error e => exact .idle _ rfl
      | ok t =>
          obtain ⟨hok, rfl⟩ := NodeState.acceptBlock_eq_ok_iff.mp haccept
          exact .appended now block hok
  | begin now =>
      rw [step]
      split
      · rename_i hmay
        exact .began now hmay
      · exact .idle _ rfl
  | mine event =>
      rw [step]
      cases hattempt : node.attempt with
      | none => exact .idle _ rfl
      | some a => exact .mined event a hattempt (Attempt.step_effect node.setup node.state a event)
  | acceptMined now =>
      rw [step]
      cases hblock : node.minedBlock? with
      | none => exact .idle _ rfl
      | some block =>
          dsimp only
          rw [NodeState.acceptMined]
          cases haccept : node.state.acceptBlock now block with
          | error e =>
              refine .rejected now block hblock fun hok => ?_
              rw [NodeState.acceptBlock_eq_ok_iff.mpr ⟨hok, rfl⟩] at haccept
              exact absurd haccept (by simp)
          | ok t =>
              obtain ⟨hok, rfl⟩ := NodeState.acceptBlock_eq_ok_iff.mp haccept
              exact .accepted now block hblock hok
  | save => exact .saved _

/-- **What an event can do to the ledger**: nothing, or append a block that is acceptable at the
event's reading of the clock. -/
theorem Effect.ledger {node next : Node} {event : NodeEvent} (h : Effect node event next) :
    node.state.SameLedger next.state ∨
      ∃ now block, event.reading? = some now ∧
        node.state.rules.Acceptable node.state.chain now block ∧
        next.state = node.state.append block := by
  cases h with
  | idle => exact Or.inl (.refl _)
  | submitted tx => exact Or.inl (NodeState.sameLedger_submit node.state tx)
  | appended now block acceptable => exact Or.inr ⟨now, block, rfl, acceptable, rfl⟩
  | began now => exact Or.inl (Attempt.sameLedger_start node.setup node.state now)
  | mined event a attempt effect => exact Or.inl effect.sameLedger
  | accepted now block waiting acceptable => exact Or.inr ⟨now, block, rfl, acceptable, rfl⟩
  | rejected => exact Or.inl ⟨rfl, rfl, rfl⟩
  | saved => exact Or.inl (.refl _)

/-- Blocks stay in the chain, in their places. -/
theorem Effect.blocks_grow {node next : Node} {event : NodeEvent} (h : Effect node event next) :
    node.state.chain.blocks <+: next.state.chain.blocks := by
  rcases h.ledger with hsame | ⟨now, block, -, -, happend⟩
  · exact hsame.chain ▸ List.prefix_refl _
  · rw [happend]
    show node.state.chain.blocks <+: (node.state.chain.push block).blocks
    rw [Chain.blocks_push]
    exact List.prefix_append _ _

/-- Only a save touches the archive. -/
theorem Effect.archive_eq {node next : Node} {event : NodeEvent} (h : Effect node event next)
    (hevent : event ≠ .save) : next.archive = node.archive := by
  cases h with
  | saved => exact absurd rfl hevent
  | _ => rfl

/-- Mining changes no ledger until a block is offered to the chain. -/
theorem sameLedger_mine (node : Node) (event : AttemptEvent) :
    node.state.SameLedger (node.step (.mine event)).state := by
  rw [step]
  cases node.attempt with
  | none => exact .refl _
  | some a => exact (Attempt.step_effect node.setup node.state a event).sameLedger

theorem sameLedger_run_mine : ∀ (actions : List AttemptEvent) (node : Node),
    node.state.SameLedger (node.run (actions.map .mine)).state := by
  intro actions
  induction actions with
  | nil => exact fun node => .refl _
  | cons action rest ih => exact fun node => (sameLedger_mine node action).trans (ih _)

/-- **What an event can do to the attempt**: nothing, end it, begin one, or carry it on. -/
theorem Effect.attempt_cases {node next : Node} {event : NodeEvent} (h : Effect node event next) :
    next.attempt = node.attempt ∨ next.attempt = none ∨
      (∃ now, next.attempt = some (Attempt.start node.setup node.state now).2) ∨
      ∃ mined a, event = .mine mined ∧ node.attempt = some a ∧
        next.attempt = some (a.step node.setup node.state mined).2 := by
  cases h with
  | idle => exact Or.inl rfl
  | submitted => exact Or.inl rfl
  | appended => exact Or.inl rfl
  | began now => exact Or.inr (Or.inr (Or.inl ⟨now, rfl⟩))
  | mined event a attempt => exact Or.inr (Or.inr (Or.inr ⟨event, a, rfl, attempt, rfl⟩))
  | accepted => exact Or.inr (Or.inl rfl)
  | rejected => exact Or.inr (Or.inl rfl)
  | saved => exact Or.inl rfl

/-! ### Events that fit -/

theorem step_offer {node : Node} {now : UInt64} {block : Block} {t : NodeState}
    (h : node.state.acceptBlock now block = .ok t) :
    node.step (.offer now block) = { node with state := t } := by
  rw [step, h]

theorem step_begin {node : Node} (h : node.mayBegin = true) (now : UInt64) :
    node.step (.begin now) =
      { node with
        state := (Attempt.start node.setup node.state now).1
        attempt := some (Attempt.start node.setup node.state now).2 } := by
  rw [step, if_pos h]

theorem step_mine {node : Node} {event : AttemptEvent} {a a' : Attempt} {s : NodeState}
    (h : node.attempt = some a) (hstep : a.step node.setup node.state event = (s, a')) :
    node.step (.mine event) = { node with state := s, attempt := some a' } := by
  rw [step, h]
  dsimp only
  rw [hstep]

theorem step_acceptMined {node : Node} {now : UInt64} {block : Block} {t : NodeState}
    (hwaiting : node.minedBlock? = some block) (h : node.state.acceptBlock now block = .ok t) :
    node.step (.acceptMined now) = { node with state := t, attempt := none } := by
  rw [step, hwaiting]
  dsimp only
  rw [NodeState.acceptMined, h]

/-- What the miner knows of its node never changes. -/
theorem Effect.setup_eq {node next : Node} {event : NodeEvent} (h : Effect node event next) :
    next.setup = node.setup := by
  cases h <;> rfl

/-! ### Runs -/

/-- A node that holds genesis only. -/
def fresh (identity : Identity) (peers : List Address) (p : Params) (archive : Option Archive) :
    Node :=
  ofState identity peers p (.start p) archive

theorem run_cons (node : Node) (event : NodeEvent) (rest : List NodeEvent) :
    node.run (event :: rest) = (node.step event).run rest := rfl

theorem run_append (node : Node) (events more : List NodeEvent) :
    node.run (events ++ more) = (node.run events).run more :=
  List.foldl_append

/-- **What holds at first and is kept by every event holds after every run.** -/
theorem run_induction {P : Node → Prop} (hstep : ∀ node event, P node → P (node.step event)) :
    ∀ (events : List NodeEvent) {node : Node}, P node → P (node.run events) := by
  intro events
  induction events with
  | nil => intro node h; exact h
  | cons event rest ih => intro node h; exact ih (hstep node event h)

theorem run_concat (node : Node) (events : List NodeEvent) (event : NodeEvent) :
    node.run (events ++ [event]) = (node.run events).step event :=
  run_append node events [event]

theorem setup_run (node : Node) (events : List NodeEvent) :
    (node.run events).setup = node.setup :=
  run_induction (P := fun reached => reached.setup = node.setup)
    (fun reached event h => (step_effect reached event).setup_eq.trans h) events rfl

/-! ### The blocks that events add to the chain -/

/-- The block that an event offers to the chain, with the reading of the clock. -/
def offered? (node : Node) : NodeEvent → Option (UInt64 × Block)
  | .offer now block => some (now, block)
  | .acceptMined now => node.minedBlock?.map fun block => (now, block)
  | _ => none

/-- The block that an event adds to the chain. -/
def accepted? (node : Node) (event : NodeEvent) : Option Block :=
  match node.offered? event with
  | none => none
  | some (now, block) =>
    match node.state.acceptBlock now block with
    | .ok _ => some block
    | .error _ => none

/-- The blocks that a run adds to the chain. -/
def acceptances (node : Node) : List NodeEvent → List Block
  | [] => []
  | event :: rest => (node.accepted? event).toList ++ (node.step event).acceptances rest

/-- An event that offers no block leaves the ledger alone. -/
theorem Effect.sameLedger {node next : Node} {event : NodeEvent} (h : Effect node event next)
    (hoffered : node.offered? event = none) : node.state.SameLedger next.state := by
  cases h with
  | idle => exact .refl _
  | submitted tx => exact NodeState.sameLedger_submit node.state tx
  | appended => exact absurd hoffered (by simp [offered?])
  | began now => exact Attempt.sameLedger_start node.setup node.state now
  | mined event a attempt effect => exact effect.sameLedger
  | accepted _ _ waiting => exact absurd hoffered (by simp [offered?, waiting])
  | rejected => exact ⟨rfl, rfl, rfl⟩
  | saved => exact .refl _

/-- A block that is offered is appended if it is accepted. -/
theorem state_of_offered {node : Node} {event : NodeEvent} {now : UInt64} {block : Block}
    (h : node.offered? event = some (now, block)) :
    (∃ t, node.state.acceptBlock now block = .ok t ∧ (node.step event).state = t) ∨
      ∃ e, node.state.acceptBlock now block = .error e ∧
        node.state.SameLedger (node.step event).state := by
  cases event with
  | offer reading offered =>
      obtain ⟨rfl, rfl⟩ := Prod.mk.inj (Option.some.inj h)
      rw [step]
      cases haccept : node.state.acceptBlock reading offered with
      | ok t => exact Or.inl ⟨t, rfl, rfl⟩
      | error e => exact Or.inr ⟨e, rfl, .refl _⟩
  | acceptMined reading =>
      obtain ⟨mined, hmined, heq⟩ := Option.map_eq_some_iff.mp h
      obtain ⟨rfl, rfl⟩ := Prod.mk.inj heq
      rw [step, hmined]
      dsimp only
      rw [NodeState.acceptMined]
      cases haccept : node.state.acceptBlock reading mined with
      | ok t => exact Or.inl ⟨t, rfl, rfl⟩
      | error e => exact Or.inr ⟨e, rfl, rfl, rfl, rfl⟩
  | _ => exact absurd h (by simp [offered?])

/-- **An event adds its block to the chain and raises the signal for it**, if it has one. -/
theorem step_accepted (node : Node) (event : NodeEvent) :
    (node.step event).state.chain = node.state.chain.extend (node.accepted? event).toList ∧
      (node.step event).state.signal.raised =
        node.state.signal.raised + (node.accepted? event).toList.length := by
  unfold accepted?
  cases hoffered : node.offered? event with
  | none =>
      have hsame := (step_effect node event).sameLedger hoffered
      exact ⟨hsame.chain, congrArg TipSignal.raised hsame.signal⟩
  | some offer =>
      obtain ⟨now, block⟩ := offer
      rcases state_of_offered hoffered with ⟨t, haccept, hstate⟩ | ⟨e, haccept, hsame⟩
      · obtain ⟨-, rfl⟩ := NodeState.acceptBlock_eq_ok_iff.mp haccept
        rw [hstate]
        simp only [haccept]
        exact ⟨rfl, rfl⟩
      · simp only [haccept]
        exact ⟨hsame.chain, congrArg TipSignal.raised hsame.signal⟩

/-- **A run adds what it accepts to the chain, and raises the signal as often.** -/
theorem run_accepted :
    ∀ (events : List NodeEvent) (node : Node),
      (node.run events).state.chain = node.state.chain.extend (node.acceptances events) ∧
        (node.run events).state.signal.raised =
          node.state.signal.raised + (node.acceptances events).length := by
  intro events
  induction events with
  | nil => intro node; exact ⟨rfl, rfl⟩
  | cons event rest ih =>
      intro node
      obtain ⟨hchain, hraised⟩ := step_accepted node event
      obtain ⟨hrest, hlater⟩ := ih (node.step event)
      refine ⟨?_, ?_⟩
      · show ((node.step event).run rest).state.chain = _
        rw [hrest, hchain, acceptances]
        exact List.foldl_append.symm
      · show ((node.step event).run rest).state.signal.raised = _
        rw [hlater, hraised, acceptances, List.length_append]
        omega

theorem blocks_run (node : Node) (events : List NodeEvent) :
    (node.run events).state.chain.blocks =
      node.state.chain.blocks ++ node.acceptances events := by
  rw [(run_accepted events node).1, Chain.blocks_extend]

theorem lawful_run {p : Params} {node : Node} (events : List NodeEvent)
    (h : node.state.Lawful p) : (node.run events).state.Lawful p := by
  refine run_induction (P := fun node => node.state.Lawful p) (fun node event hnode => ?_) events h
  rcases (step_effect node event).ledger with hsame | ⟨now, block, -, hok, happend⟩
  · exact hnode.of_sameLedger hsame
  · rw [happend]
    exact hnode.append hok

end Node

/-! ### A block from another miner -/

/-- Parameters under which every digest does the work. -/
def Params.easiest : Params where
  initialDifficulty := 1
  minimumDifficulty := 1
  maximumDifficulty := 1

/-- Genesis alone requires no verifiers. -/
theorem NodeState.requiredQuorum_start (p : Params) : (NodeState.start p).requiredQuorum = 0 := by
  simp [NodeState.requiredQuorum, Rules.requiredQuorum, NodeState.start, NodeState.ofParts,
    Chain.start, Chain.minerCount, Chain.height, quorumSize]

/-- A transaction is the only one that waits after it was given to a fresh node. -/
theorem NodeState.pending_submit_start (p : Params) (tx : Transaction) :
    ((start p).submit tx).1.pool.pending = [tx] := by
  rcases submit_cases (start p) tx with ⟨hfinal, -⟩ | ⟨status, hstatus, -⟩ | ⟨-, -, heq⟩
  · exact absurd hfinal (by simp [start, ofParts, Chain.start, Chain.isFinalized])
  · exact absurd hstatus (by simp [start, ofParts, Pool.status?, Pool.empty])
  · rw [heq]
    rfl

namespace Node

/-- A block that any miner may offer to a fresh node. -/
def rivalBy (miner : MinerKey) : Block :=
  .candidate miner [⟨.zero, .zero, 5, 6⟩] 1 0 Chain.start.tipDigest

theorem acceptable_rivalBy (miner : MinerKey) :
    (NodeState.start .easiest).rules.Acceptable .start 7 (rivalBy miner) := by
  have hquorum : (NodeState.start .easiest).rules.requiredQuorum .start = 0 :=
    NodeState.requiredQuorum_start .easiest
  have hset : Chain.start.Admits ((NodeState.start .easiest).rules.requiredQuorum .start) [] [] :=
    ⟨rfl, Nat.le_of_eq hquorum, List.nodup_nil, by simp⟩
  refine ⟨rfl, by simp [rivalBy, Block.candidate], ?_, Target.admits_one _, UInt64.le_refl 0,
    Nat.zero_le _, List.nodup_singleton _, ?_, hset, hset, by simp [rivalBy, Block.candidate]⟩
  · show 1 = (NodeState.start .easiest).rules.nextDifficulty .start
    decide
  · intro tx _
    simp [Chain.isFinalized, Chain.start]

/-- As long as a node holds genesis only, it takes the block. -/
theorem step_offer_rivalBy {node : Node} (h : (NodeState.start .easiest).SameLedger node.state)
    (miner : MinerKey) :
    node.step (.offer 7 (rivalBy miner)) =
      { node with state := node.state.append (rivalBy miner) } := by
  refine step_offer (NodeState.acceptBlock_eq_ok_iff.mpr ⟨?_, rfl⟩)
  rw [h.rules, h.chain]
  exact acceptable_rivalBy miner

end Node

end AttestedLedger
