/-
A block on its way from the attempt to the chain.

`OnTrack` says of a node that the attempt under way is ready for its state, in the sense of
`Attempt.Ready`, and that the tip's timestamp is plausible at the reading of the clock at
which the block will be judged.  Every event keeps it, provided no reading is later than
that one.  A rival block is where digests matter: it moves the tip, and the candidate's
parent is then no longer the tip, since no two blocks of the chain share a digest.

`SealedDuring` looks back: some event of the run found the nonce of a block, and the
block's first set was complete before that event.

`Effect.finishes` names the event that finishes a block, and `mines_solo` shows a run in which a
node that needs nobody else comes to one.
-/
import AttestedLedger.Proofs.Ledger.Naming
import AttestedLedger.Proofs.Mining.Production
import AttestedLedger.Proofs.Node.Upkeep

namespace AttestedLedger

/-- A rival block puts an end to what is owed to a candidate. -/
theorem Attempt.Ready.append {p : Params} {s : NodeState} {now reading : UInt64} {a : Attempt}
    {block : Block} (h : a.Ready s now) (hlawful : s.Lawful p)
    (hok : s.rules.Acceptable s.chain reading block)
    (hnames : Distinguished (s.append block).chain.blocks) : a.Ready (s.append block) now := by
  have hblocks : (s.append block).chain.blocks = s.chain.blocks ++ [block] :=
    Chain.blocks_push s.chain block
  refine ⟨fun hrunning => ?_, fun hrunning htip => ?_⟩
  · obtain ⟨parent, hin, hparent⟩ := h.placed hrunning
    rw [hblocks]
    exact ⟨parent, List.mem_append_left _ hin, hparent⟩
  · obtain ⟨parent, hin, hparent⟩ := h.placed hrunning
    have hvalid := (hlawful.append hok).history
    rw [hblocks] at hvalid hnames
    exact absurd (hparent.symm.trans htip) (hvalid.digest_ne_last hnames hin)

theorem Params.admits_easiest (digest : Digest) :
    (Target.ofDifficulty (NodeState.start easiest).nextDifficulty).admits digest = true := by
  rw [show (NodeState.start easiest).nextDifficulty = 1 by decide]
  exact Target.admits_one digest

theorem MinerSetup.slice_pos (miner : MinerKey) (peers : List Address) (p : Params) :
    0 < min (ofParams miner peers p).checkInterval (ofParams miner peers p).noncesPerRound :=
  Nat.lt_min.mpr ⟨Nat.lt_of_lt_of_le Nat.zero_lt_one (Nat.le_max_right _ _),
    Nat.lt_of_lt_of_le Nat.zero_lt_one (Nat.le_max_right _ _)⟩

namespace Node

/-- The attempt under way is ready, and the tip is not from the future. -/
structure OnTrack (node : Node) (now : UInt64) : Prop where
  time : node.state.chain.tip.timestamp.toNat ≤ node.state.rules.latestTimestamp now
  ready : ∀ a, node.attempt = some a → a.Ready node.state now

variable {node next : Node} {now : UInt64}

/-- Events that leave ledger and attempt alone. -/
theorem OnTrack.of_same (h : node.OnTrack now) (hledger : node.state.SameLedger next.state)
    (hattempt : next.attempt = node.attempt) : next.OnTrack now where
  time := by
    rw [hledger.chain, hledger.rules]
    exact h.time
  ready := by
    intro a ha
    have hready := h.ready a (hattempt ▸ ha)
    refine ⟨fun hrunning => ?_, fun hrunning htip => ?_⟩
    · rw [hledger.chain]
      exact hready.placed hrunning
    · rw [hledger.chain] at htip ⊢
      rw [hledger.rules]
      exact hready.onTip hrunning htip

/-- Every event of a node keeps it on track. -/
theorem Effect.onTrack {p : Params} {event : NodeEvent} (heffect : Effect node event next)
    (h : node.OnTrack now) (hsound : node.state.Sound node.claimed) (hlawful : node.state.Lawful p)
    (hclock : ∀ reading, event.reading? = some reading → reading ≤ now)
    (hnames : Distinguished next.state.chain.blocks) : next.OnTrack now := by
  have happend : ∀ {reading : UInt64} {block : Block}, reading ≤ now →
      node.state.rules.Acceptable node.state.chain reading block →
      block.timestamp.toNat ≤ node.state.rules.latestTimestamp now :=
    fun hreading hok => Nat.le_trans hok.notAfter (node.state.rules.latestTimestamp_mono hreading)
  cases heffect with
  | idle => exact h
  | submitted tx => exact h.of_same (NodeState.sameLedger_submit node.state tx) rfl
  | appended reading block acceptable =>
      exact ⟨happend (hclock reading rfl) acceptable,
        fun a ha => (h.ready a ha).append hlawful acceptable hnames⟩
  | began reading may =>
      rw [claimed_of_mayBegin may] at hsound
      have hledger := Attempt.sameLedger_start node.setup node.state reading
      refine ⟨?_, ?_⟩
      · rw [hledger.chain, hledger.rules]
        exact h.time
      rintro a ⟨⟩
      rcases Attempt.start_of_sound node.setup hsound reading with
        ⟨-, -, hended⟩ | ⟨hwaiting, -, hstage, hcandidate⟩
      · exact Attempt.ready_of_ended hended
      · exact Attempt.ready_of_fresh hsound hwaiting (hclock reading rfl) h.time hledger
          hcandidate hstage
  | mined event a attempt effect =>
      have hledger := effect.sameLedger
      refine ⟨?_, ?_⟩
      · rw [hledger.chain, hledger.rules]
        exact h.time
      rintro a' ⟨⟩
      rw [claimed, attempt] at hsound
      dsimp only at hsound
      cases hresult : a.result? with
      | none =>
          rw [Attempt.taken_of_running hresult] at hsound
          refine (h.ready a attempt).step hresult hsound node.setup ?_ h.time
          rintro reading rfl
          exact hclock reading rfl
      | some result =>
          rw [Attempt.step_of_ended node.setup node.state event hresult]
          exact h.ready a attempt
  | accepted reading block waiting acceptable =>
      exact ⟨happend (hclock reading rfl) acceptable, by simp⟩
  | rejected reading block waiting =>
      exact ⟨h.time, by simp⟩
  | saved archive => exact h.of_same (.refl _) rfl

theorem onTrack_run (identity : Identity) (peers : List Address) (p : Params)
    (archive : Option Archive) (events : List NodeEvent)
    (hclock : ∀ event ∈ events, ∀ reading, event.reading? = some reading → reading ≤ now)
    (hnames : Distinguished ((fresh identity peers p archive).run events).state.chain.blocks) :
    ((fresh identity peers p archive).run events).OnTrack now := by
  induction events using List.reverseRecOn with
  | nil => exact ⟨Nat.zero_le _, by simp [run, fresh, ofState]⟩
  | append_singleton events event ih =>
      rw [run_concat] at hnames ⊢
      have heffect := step_effect ((fresh identity peers p archive).run events) event
      refine heffect.onTrack ?_ (sound_run_fresh identity peers p archive events)
        (lawful_run events (NodeState.lawful_start p)) (hclock event (by simp)) hnames
      exact ih (fun e he => hclock e (List.mem_append_left _ he))
        (hnames.mono heffect.blocks_grow.subset)

/-! ### Looking back to the search -/

/-- The event after `early` found the nonce of a block whose first set was complete before. -/
structure FoundAfter (origin : Node) (early : List NodeEvent) (elapsed : Duration) (block : Block) :
    Prop where
  before : ∃ a tried, (origin.run early).attempt = some a ∧ a.stage = .searching tried ∧
    a.preQuorum = true ∧ block.preVerifiers = a.candidate.preVerifiers ∧
    block.preSignatures = a.candidate.preSignatures
  after : ∃ a, (origin.run (early ++ [.mine (.search elapsed)])).attempt = some a ∧
    a.candidate.hasWork = true ∧ block.sealedBytes = a.candidate.sealedBytes

/-- Some event of a run found the nonce of a block whose first set was complete before. -/
def SealedDuring (origin : Node) (events : List NodeEvent) (block : Block) : Prop :=
  ∃ early elapsed rest, events = early ++ .mine (.search elapsed) :: rest ∧
    FoundAfter origin early elapsed block

theorem SealedDuring.congr {origin : Node} {events : List NodeEvent} {block other : Block}
    (h : SealedDuring origin events block) (hsame : Attempt.SameSeal block other) :
    SealedDuring origin events other := by
  obtain ⟨early, elapsed, rest, rfl, hbefore, hafter⟩ := h
  obtain ⟨a, tried, hattempt, hstage, hquorum, hkeys, hsignatures⟩ := hbefore
  obtain ⟨found, hfound, hwork, hbytes⟩ := hafter
  refine ⟨early, elapsed, rest, rfl, ?_, ?_⟩
  · exact ⟨a, tried, hattempt, hstage, hquorum, hsame.preVerifiers.trans hkeys,
      hsame.preSignatures.trans hsignatures⟩
  · exact ⟨found, hfound, hwork, hsame.bytes.trans hbytes⟩

theorem SealedDuring.concat {origin : Node} {events : List NodeEvent} {block : Block}
    (h : SealedDuring origin events block) (event : NodeEvent) :
    SealedDuring origin (events ++ [event]) block := by
  obtain ⟨early, elapsed, rest, rfl, hfound⟩ := h
  exact ⟨early, elapsed, rest ++ [event], by simp, hfound⟩

/-- **A nonce that a candidate keeps was found during the run**, and a finished block is the
candidate. -/
theorem sealed_run {origin : Node} (horigin : origin.attempt = none) (events : List NodeEvent) :
    ∀ a, (origin.run events).attempt = some a →
      (a.stage.closes = true → SealedDuring origin events a.candidate) ∧
        ∀ block, a.result? = some (.ok block) → block = a.candidate := by
  induction events using List.reverseRecOn with
  | nil =>
      intro a ha
      rw [show origin.run [] = origin from rfl, horigin] at ha
      exact absurd ha (by simp)
  | append_singleton events event ih =>
      intro a ha
      have hrun := run_concat origin events event
      rw [hrun] at ha
      rcases (step_effect (origin.run events) event).attempt_cases with
        hsame | hgone | ⟨built, hbegun⟩ | ⟨mined, before, rfl, hbefore, hmined⟩
      · obtain ⟨hsealed, hblock⟩ := ih a (hsame ▸ ha)
        exact ⟨fun hcloses => (hsealed hcloses).concat event, hblock⟩
      · rw [hgone] at ha
        exact absurd ha (by simp)
      · obtain rfl := Option.some.inj (hbegun.symm.trans ha)
        have hopen := Attempt.closes_start (origin.run events).setup (origin.run events).state built
        refine ⟨fun hcloses => ?_, fun block hdone => ?_⟩
        · rw [hopen] at hcloses
          exact absurd hcloses Bool.false_ne_true
        · rw [Attempt.closes_of_finished hdone] at hopen
          exact absurd hopen (by simp)
      · obtain rfl := Option.some.inj (hmined.symm.trans ha)
        obtain ⟨hsealed, hblock⟩ := ih before hbefore
        refine ⟨fun hcloses => ?_, fun block hdone => ?_⟩
        · rcases Attempt.step_closes _ _ _ _ hcloses with
            ⟨hclosed, hsame⟩ | ⟨tried, elapsed, hstage, rfl, hquorum, hwork, hkeys, hsignatures⟩
          · exact ((hsealed hclosed).congr hsame).concat _
          · refine ⟨events, elapsed, [], rfl, ?_, ?_⟩
            · exact ⟨before, tried, hbefore, hstage, hquorum, hkeys, hsignatures⟩
            · exact ⟨_, hrun ▸ hmined, hwork, rfl⟩
        · cases hresult : before.result? with
          | none =>
              exact ((Attempt.step_effect _ _ _ _).finished hresult hdone).1.1.symm
          | some result =>
              rw [Attempt.step_of_ended _ _ _ hresult] at hdone ⊢
              exact hblock block hdone

/-! ### A node that mines alone -/

theorem minedBlock?_eq {a : Attempt} (h : node.attempt = some a) (block : Block) :
    node.minedBlock? = some block ↔ a.result? = some (.ok block) := by
  rw [minedBlock?, h]
  dsimp only
  rcases a.result? with _ | (e | mined)
  · simp
  · simp
  · simp

/-- An attempt that needs no verifiers and no luck finishes a block. -/
theorem finishes_solo {a : Attempt} (hattempt : node.attempt = some a)
    (hstage : a.stage = .calling .opening) (hquorum : node.state.requiredQuorum = 0)
    (htip : node.state.chain.tipDigest = a.candidate.previous)
    (heasy : ∀ digest, (Target.ofDifficulty a.candidate.difficulty).admits digest = true)
    (hsize : 0 < min node.setup.checkInterval node.setup.noncesPerRound)
    (elapsed : Duration) (settled : UInt64) :
    ∃ settling : Node,
      node.run [.mine .call, .mine (.search elapsed), .mine .call] = settling ∧
      settling.state = node.state ∧ settling.minedBlock? = none ∧
      ∃ block, (settling.step (.mine (.proceed settled))).minedBlock? = some block := by
  obtain ⟨searching, closing, settling, block, hcall, hsearch, hclose, hrunning, hdone⟩ :=
    Attempt.finishes_alone node.setup hstage hquorum htip heasy hsize elapsed settled
  have hcalled : node.step (.mine .call) = { node with attempt := some searching } :=
    step_mine hattempt hcall
  have hfound : ({ node with attempt := some searching } : Node).step (.mine (.search elapsed)) =
      { node with attempt := some closing } := step_mine rfl hsearch
  have hclosed : ({ node with attempt := some closing } : Node).step (.mine .call) =
      { node with attempt := some settling } := step_mine rfl hclose
  refine ⟨{ node with attempt := some settling }, ?_, rfl, ?_, block, ?_⟩
  · show ((node.step (.mine .call)).step (.mine (.search elapsed))).step (.mine .call) = _
    rw [hcalled, hfound, hclosed]
  · rw [minedBlock?]
    dsimp only
    rw [hrunning]
  · rw [step_mine rfl rfl]
    exact (minedBlock?_eq rfl block).mpr hdone

variable (identity : Identity) (peers : List Address) (p : Params) (archive : Option Archive)

/-- The first candidate of a fresh node that was given a transaction. -/
theorem begin_of_submitted (tx : Transaction) (built : UInt64) :
    ∃ a, ((fresh identity peers p archive).run [.submit tx, .begin built]).attempt = some a ∧
      a.stage = .calling .opening ∧ a.candidate.previous = Chain.start.tipDigest ∧
      a.candidate.difficulty = (NodeState.start p).nextDifficulty := by
  have hsound := (NodeState.sound_start p).submit tx
  have hledger := NodeState.sameLedger_submit (.start p) tx
  have hwaiting := NodeState.pending_submit_start p tx
  obtain ⟨s, hs⟩ : ∃ s, s = ((NodeState.start p).submit tx).1 := ⟨_, rfl⟩
  rw [← hs] at hsound hledger hwaiting
  refine ⟨(Attempt.start (.ofParams identity.minerKey peers p) s built).2, ?_, ?_⟩
  · rw [hs]
    rfl
  rcases Attempt.start_of_sound (.ofParams identity.minerKey peers p) hsound built with
    ⟨hdry, -, -⟩ | ⟨-, -, hstage, hcandidate⟩
  · exact absurd (hwaiting.symm.trans hdry) (List.cons_ne_nil _ _)
  · rw [hcandidate]
    refine ⟨hstage, congrArg Chain.tipDigest hledger.chain, ?_⟩
    show s.rules.nextDifficulty s.chain = _
    rw [hledger.chain, hledger.rules]
    rfl

theorem sameLedger_begin_of_submitted (tx : Transaction) (built : UInt64) :
    (NodeState.start p).SameLedger
      ((fresh identity peers p archive).run [.submit tx, .begin built]).state :=
  (NodeState.sameLedger_submit (.start p) tx).trans
    (Attempt.sameLedger_start (.ofParams identity.minerKey peers p) _ built)

/-- The events of a node that mines a transaction alone, before the block is finished. -/
def soloEvents (tx : Transaction) (built : UInt64) (elapsed : Duration) : List NodeEvent :=
  [.submit tx, .begin built] ++ [.mine .call, .mine (.search elapsed), .mine .call]

/-- **A fresh node mines a transaction alone** where every digest does the work. -/
theorem mines_solo (heasy : ∀ digest,
      (Target.ofDifficulty (NodeState.start p).nextDifficulty).admits digest = true)
    (tx : Transaction) (built : UInt64) (elapsed : Duration) (settled : UInt64) :
    ∃ settling : Node,
      (fresh identity peers p archive).run (soloEvents tx built elapsed) = settling ∧
      settling.state.chain = .start ∧ settling.minedBlock? = none ∧
      ∃ block, (settling.step (.mine (.proceed settled))).minedBlock? = some block := by
  obtain ⟨a, hattempt, hstage, hprevious, hdifficulty⟩ :=
    begin_of_submitted identity peers p archive tx built
  have hledger := sameLedger_begin_of_submitted identity peers p archive tx built
  rw [← hdifficulty] at heasy
  rw [soloEvents, run_append]
  have hsetup : ((fresh identity peers p archive).run [.submit tx, .begin built]).setup =
      .ofParams identity.minerKey peers p := rfl
  generalize (fresh identity peers p archive).run [.submit tx, .begin built] = begun at *
  have hquorum : begun.state.requiredQuorum = 0 := by
    rw [NodeState.requiredQuorum, hledger.chain, hledger.rules]
    exact NodeState.requiredQuorum_start p
  have htip : begun.state.chain.tipDigest = a.candidate.previous :=
    (congrArg Chain.tipDigest hledger.chain).trans hprevious.symm
  have hsize := hsetup ▸ MinerSetup.slice_pos identity.minerKey peers p
  obtain ⟨settling, hrun, hstate, hblock⟩ :=
    finishes_solo hattempt hstage hquorum htip heasy hsize elapsed settled
  refine ⟨settling, hrun, ?_, hblock⟩
  rw [hstate, hledger.chain]
  rfl

/-! ### The last step -/

/-- The block that an event finishes comes from the attempt's closing round. -/
theorem Effect.finishes {event : NodeEvent} {block : Block} (heffect : Effect node event next)
    (hunfinished : node.minedBlock? = none) (hfinished : next.minedBlock? = some block) :
    ∃ mined a, event = .mine mined ∧ node.attempt = some a ∧ a.result? = none ∧
      (a.step node.setup node.state mined).2.result? = some (.ok block) := by
  rcases heffect.attempt_cases with
    hsame | hgone | ⟨built, hbegun⟩ | ⟨mined, a, rfl, hattempt, hmined⟩
  · rw [minedBlock?, hsame] at hfinished
    exact absurd (hunfinished.symm.trans hfinished) (by simp)
  · rw [minedBlock?, hgone] at hfinished
    exact absurd hfinished (by simp)
  · have hopen := Attempt.closes_start node.setup node.state built
    rw [Attempt.closes_of_finished ((minedBlock?_eq hbegun block).mp hfinished)] at hopen
    exact absurd hopen (by simp)
  · have hdone := (minedBlock?_eq hmined block).mp hfinished
    refine ⟨mined, a, rfl, hattempt, ?_, hdone⟩
    cases hended : a.result? with
    | none => rfl
    | some result =>
        rw [Attempt.step_of_ended _ _ _ hended] at hdone
        rw [(minedBlock?_eq hattempt block).mpr hdone] at hunfinished
        exact absurd hunfinished (by simp)

end Node

end AttestedLedger
