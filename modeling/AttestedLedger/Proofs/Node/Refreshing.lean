/-
Resyncing brings a candidate up to date.

A candidate is drawn up from the tip and from what waits, and resyncing compares it with both.
What it compares with is the state as it was when the candidate was last drawn up or compared
(`exists_sync`), so a candidate is kept exactly when neither has changed since.

That a kept candidate has the right difficulty and is not older than the tip is not compared.
It was so when the candidate was drawn up, and stays so as long as the tip stays
(`NodeState.WhileOnTip`); a tip that has moved is told by its digest, which no older block of the
chain has.  This is where digests matter.
-/
import AttestedLedger.Proofs.Node.Watching

namespace AttestedLedger

/-! ### What lasts as long as the tip -/

namespace NodeState

/-- The block's parent is in the chain, and something is owed to the block as long as that parent
is the tip. -/
structure WhileOnTip (s : NodeState) (block : Block) (owed : Prop) : Prop where
  placed : ∃ parent ∈ s.chain.blocks, block.previous = parent.digest
  onTip : block.previous = s.chain.tipDigest → owed

variable {s t : NodeState} {block : Block} {owed : Prop}

theorem whileOnTip_of_previous (hindexed : s.chain.Indexed)
    (hprevious : block.previous = s.chain.tipDigest) (howed : owed) : s.WhileOnTip block owed :=
  ⟨⟨s.chain.tip, s.chain.tip_mem_blocks, hprevious.trans hindexed.tip⟩, fun _ => howed⟩

/-- Work that touches neither the chain nor the block's parent. -/
theorem WhileOnTip.congr (h : s.WhileOnTip block owed) (hchain : t.chain = s.chain)
    {other : Block} (hprevious : other.previous = block.previous) {due : Prop}
    (hdue : owed → due) : t.WhileOnTip other due := by
  refine ⟨?_, fun htip => hdue (h.onTip ?_)⟩
  · rw [hchain, hprevious]
    exact h.placed
  · rw [← hprevious, ← hchain]
    exact htip

/-- **A new tip puts an end to what is owed**: its digest is not that of any block before. -/
theorem WhileOnTip.append (h : s.WhileOnTip block owed) (hindexed : s.chain.Indexed)
    {reading : UInt64} {rival : Block} (hok : s.rules.Acceptable s.chain reading rival)
    (hnames : Distinguished (s.append rival).chain.blocks) (due : Prop) :
    (s.append rival).WhileOnTip block due := by
  have hblocks : (s.append rival).chain.blocks = s.chain.blocks ++ [rival] :=
    Chain.blocks_push s.chain rival
  obtain ⟨parent, hin, hparent⟩ := h.placed
  rw [hblocks] at hnames
  refine ⟨⟨parent, hblocks ▸ List.mem_append_left _ hin, hparent⟩, fun htip => ?_⟩
  exact absurd (hparent.symm.trans htip)
    (hindexed.digest_ne_of_fresh hnames hin hok.nonempty hok.fresh)

/-! ### Resyncing once and again -/

/-- Two states with the same ledger and the same entries and statuses in the pool. -/
structure Alike (s t : NodeState) : Prop where
  ledger : s.SameLedger t
  pending : t.pool.pending = s.pool.pending
  status : ∀ digest, t.pool.status? digest = s.pool.status? digest

variable {next : Block} {now : UInt64} {anew : Bool}

/-- **A candidate that was just resynced is current**, and its transactions are what is taken. -/
theorem Sound.current_of_resync (h : s.Sound block.transactions)
    (hok : (s.resync block now).2 = .ok (anew, next)) :
    (s.resync block now).1.Sound next.transactions ∧
      (s.resync block now).1.isCurrent next = true := by
  have hpending := pending_resync h.tidy.orderly block now
  have hchain := (sameLedger_resync s block now).chain
  rw [isCurrent, hpending, hchain, previous_of_resync hok]
  cases anew with
  | false =>
      obtain ⟨hcurrent, rfl, hsound⟩ := h.resync_kept hok
      exact ⟨hsound, decide_eq_true ⟨rfl, (of_decide_eq_true hcurrent).2⟩⟩
  | true =>
      obtain ⟨-, rfl, hsound⟩ := h.resync_anew hok
      exact ⟨hsound, decide_eq_true ⟨rfl, rfl⟩⟩

/-- A current candidate is kept, and nothing changes. -/
theorem Sound.resync_of_current (h : s.Sound block.transactions)
    (hcurrent : s.isCurrent block = true) (now : UInt64) :
    (s.resync block now).2 = .ok (false, block) ∧ s.Alike (s.resync block now).1 := by
  rw [resync_eq h.tidy.orderly h.anchored.link, if_pos hcurrent]
  exact ⟨rfl, ⟨rfl, rfl, rfl⟩, h.tidy.orderly.pending_prune, h.tidy.orderly.status?_prune⟩

/-- A candidate is kept exactly when it is current. -/
theorem Sound.resync_kept_iff (h : s.Sound block.transactions) (now : UInt64) :
    (∃ next, (s.resync block now).2 = .ok (false, next)) ↔
      s.chain.tipDigest = block.previous ∧ s.pool.pending = block.transactions := by
  constructor
  · rintro ⟨next, hok⟩
    exact of_decide_eq_true (h.resync_kept hok).1
  · intro hcurrent
    exact ⟨block, (h.resync_of_current (decide_eq_true hcurrent) now).1⟩

/-- Resyncing fails only for want of transactions. -/
theorem Sound.resync_error_eq (h : s.Sound block.transactions) {error : MiningError}
    (herror : (s.resync block now).2 = .error error) : error = .poolDry := by
  rcases h.tidy.resync_cases h.anchored.link now with
    ⟨-, hkept, -⟩ | ⟨-, -, hanew, -⟩ | ⟨-, -, hdry, -⟩
  · exact absurd (herror.symm.trans hkept) (by simp)
  · exact absurd (herror.symm.trans hanew) (by simp)
  · exact Except.error.inj (herror.symm.trans hdry)

/-- A candidate with transactions is found wanting exactly when nothing waits. -/
theorem Sound.resync_dry_iff (h : s.Sound block.transactions) (hnonempty : block.transactions ≠ [])
    (now : UInt64) : (s.resync block now).2 = .error .poolDry ↔ s.pool.pending = [] := by
  rcases h.tidy.resync_cases h.anchored.link now with
    ⟨hcurrent, hkept, -⟩ | ⟨-, hwaiting, hanew, -⟩ | ⟨-, hdry, herror, -⟩
  · rw [hkept, (of_decide_eq_true hcurrent).2]
    exact iff_of_false (by simp) hnonempty
  · rw [hanew]
    exact iff_of_false (by simp) hwaiting
  · exact iff_of_true herror hdry

end NodeState

namespace Attempt

variable {s : NodeState} {a : Attempt}

theorem result?_of_unreturned (h : a.stage.returned = false) : a.result? = none := by
  rw [result?]
  split
  · rename_i hstage
    rw [hstage] at h
    exact absurd h (by simp [Stage.returned])
  · rfl

theorem result?_of_resyncs {event : AttemptEvent} (h : a.resyncs s event = true) :
    a.result? = none := by
  obtain ⟨-, -, hstage | ⟨round, hstage, -⟩⟩ := resyncs_cases h
  · exact result?_eq_none hstage rfl
  · exact result?_eq_none hstage rfl

/-- A step that resyncs goes on with what resyncing answers, unless it returns. -/
theorem resynced_of_resyncs (setup : MinerSetup) {event : AttemptEvent}
    (hresyncs : a.resyncs s event = true)
    (hgoes : (a.step setup s event).2.stage.returned = false) :
    ∃ now anew, (s.resync a.candidate now).2 = .ok (anew, (a.step setup s event).2.candidate) ∧
      (a.step setup s event).1 = (s.resync a.candidate now).1 := by
  obtain ⟨now, rfl, hstage | ⟨round, hstage, htip⟩⟩ := resyncs_cases hresyncs
  · have hstep : a.step setup s (.proceed now) = afterResync s a now := by
      simp only [step, hstage]
    rw [hstep] at hgoes ⊢
    rcases afterResync_cases s a now with
      ⟨kept, hkept, hnext⟩ | ⟨block, hok, hnext⟩ | ⟨error, -, hnext⟩
    · rw [hnext]
      exact ⟨now, false, NodeState.resync_unbuilt hkept ▸ hkept, rfl⟩
    · rw [hnext]
      exact ⟨now, true, hok, rfl⟩
    · rw [hnext] at hgoes
      exact absurd hgoes (by simp [givenUp, Stage.returned])
  · have hstep : a.step setup s (.proceed now) = settle s a round now := by
      simp only [step, hstage]
    rw [hstep] at hgoes ⊢
    rcases settle_cases htip round now with ⟨anew, block, hok, hnext⟩ | ⟨error, -, hnext⟩
    · rw [hnext]
      exact ⟨now, anew, hok, rfl⟩
    · rw [hnext] at hgoes
      exact absurd hgoes (by simp [givenUp, Stage.returned])

/-- An attempt that has no candidate to go on with keeps the one it has. -/
theorem candidate_of_resync_error {now : UInt64} {error : MiningError}
    (h : (s.resync a.candidate now).2 = .error error) :
    (afterResync s a now).2.candidate = a.candidate ∧
      ∀ round, s.chain.tipDigest ≠ a.candidate.previous →
        (settle s a round now).2.candidate = a.candidate := by
  refine ⟨?_, fun round htip => ?_⟩
  · rcases afterResync_cases s a now with ⟨kept, -, hnext⟩ | ⟨block, hok, -⟩ | ⟨e, -, hnext⟩
    · rw [hnext]
    · exact absurd (h.symm.trans hok) (by simp)
    · rw [hnext]
      rfl
  · rcases settle_cases htip round now with ⟨anew, block, hok, -⟩ | ⟨e, -, hnext⟩
    · exact absurd (h.symm.trans hok) (by simp)
    · rw [hnext]
      rfl

end Attempt

namespace Node

variable {node next : Node} {event : NodeEvent}

/-! ### Where a candidate comes from -/

theorem claimed_of_running {a : Attempt} (hattempt : node.attempt = some a)
    (hrunning : a.result? = none) : node.claimed = a.candidate.transactions := by
  rw [claimed, hattempt]
  exact Attempt.taken_of_running hrunning

/-- **The candidate of an attempt under way was drawn up before the event, or by it**, from the tip
and from what waits. -/
theorem Effect.draft (heffect : Effect node event next) (hsound : node.state.Sound node.claimed)
    {a : Attempt} (hattempt : next.attempt = some a) (hrunning : a.result? = none) :
    (∃ before, node.attempt = some before ∧ before.result? = none ∧
        Block.SameDraft before.candidate a.candidate) ∨
      ∃ miner now, node.state.pool.pending ≠ [] ∧
        a.candidate = node.state.freshCandidate miner now ∧ node.state.SameLedger next.state := by
  have hkept : node.attempt = some a → ∃ before, node.attempt = some before ∧
      before.result? = none ∧ Block.SameDraft before.candidate a.candidate :=
    fun h => ⟨a, h, hrunning, .refl _⟩
  cases heffect with
  | idle => exact Or.inl (hkept hattempt)
  | submitted => exact Or.inl (hkept hattempt)
  | appended => exact Or.inl (hkept hattempt)
  | began now may =>
      obtain rfl := Option.some.inj hattempt
      rw [claimed_of_mayBegin may] at hsound
      rcases Attempt.start_of_sound node.setup hsound now with
        ⟨-, -, hended⟩ | ⟨hwaiting, -, -, hcandidate⟩
      · exact absurd (hended.symm.trans hrunning) (by simp)
      · exact Or.inr ⟨_, now, hwaiting, hcandidate,
          Attempt.sameLedger_start node.setup node.state now⟩
  | mined event before hbefore effect =>
      obtain rfl := Option.some.inj hattempt
      have hgoing : before.result? = none := by
        cases hended : before.result? with
        | none => rfl
        | some result =>
            rw [Attempt.step_of_ended _ _ _ hended] at hrunning
            exact absurd (hended.symm.trans hrunning) (by simp)
      rw [claimed_of_running hbefore hgoing] at hsound
      rcases effect.draft hrunning with hdraft | ⟨now, hok, hstate⟩
      · exact Or.inl ⟨before, hbefore, hgoing, hdraft⟩
      · obtain ⟨hwaiting, hfresh, -⟩ := hsound.resync_anew hok
        exact Or.inr ⟨_, now, hwaiting, hfresh, effect.sameLedger⟩
  | accepted => exact absurd hattempt (by simp)
  | rejected => exact absurd hattempt (by simp)
  | saved => exact Or.inl (hkept hattempt)

/-- A candidate always holds a transaction. -/
theorem nonempty_run (hnone : node.attempt = none) (hsound : node.state.Sound node.claimed)
    (events : List NodeEvent) :
    ∀ a, (node.run events).attempt = some a → a.result? = none →
      a.candidate.transactions ≠ [] := by
  induction events using List.reverseRecOn with
  | nil =>
      intro a hattempt
      exact absurd (hnone.symm.trans hattempt) (by simp)
  | append_singleton events event ih =>
      intro a hattempt hrunning
      rw [run_concat] at hattempt
      rcases (step_effect (node.run events) event).draft (sound_run events hsound) hattempt
        hrunning with ⟨before, hbefore, hgoing, hdraft⟩ | ⟨miner, now, hwaiting, hfresh, -⟩
      · rw [hdraft.transactions]
        exact ih before hbefore hgoing
      · rw [hfresh]
        exact hwaiting

/-- The candidate of the attempt under way has the difficulty of the next block and is not older
than the tip, as long as it extends the tip. -/
def Suited (node : Node) : Prop :=
  ∀ a, node.attempt = some a → a.result? = none →
    node.state.WhileOnTip a.candidate
      (a.candidate.difficulty = node.state.nextDifficulty ∧
        node.state.chain.tip.timestamp ≤ a.candidate.timestamp)

theorem Effect.suited (heffect : Effect node event next) (h : node.Suited)
    (hsound : node.state.Sound node.claimed)
    (hnames : Distinguished next.state.chain.blocks) : next.Suited := by
  intro a hattempt hrunning
  rcases heffect.draft hsound hattempt hrunning with
    ⟨before, hbefore, hgoing, hdraft⟩ | ⟨miner, now, -, hfresh, hledger⟩
  · have hbuilt := h before hbefore hgoing
    rcases heffect.ledger with hledger | ⟨reading, rival, -, hok, happend⟩
    · refine hbuilt.congr hledger.chain hdraft.previous fun hfits => ?_
      rw [hdraft.difficulty, hdraft.timestamp, hledger.chain, NodeState.nextDifficulty,
        hledger.rules, hledger.chain]
      exact hfits
    · rw [happend] at hnames ⊢
      exact (hbuilt.congr rfl hdraft.previous id).append hsound.indexed hok hnames _
  · rw [hfresh, NodeState.nextDifficulty, hledger.rules, hledger.chain]
    exact (NodeState.whileOnTip_of_previous hsound.indexed rfl
      ⟨rfl, node.state.tip_le_freshCandidate miner now⟩).congr hledger.chain rfl id

theorem suited_run (hnone : node.attempt = none) (hsound : node.state.Sound node.claimed)
    (events : List NodeEvent) (hnames : Distinguished (node.run events).state.chain.blocks) :
    (node.run events).Suited := by
  induction events using List.reverseRecOn with
  | nil =>
      intro a hattempt
      exact absurd (hnone.symm.trans hattempt) (by simp)
  | append_singleton events event ih =>
      rw [run_concat] at hnames ⊢
      have heffect := step_effect (node.run events) event
      exact heffect.suited (ih (hnames.mono heffect.blocks_grow.subset))
        (sound_run events hsound) hnames

/-! ### The last time it was drawn up or compared -/

/-- An event that syncs an attempt leaves it with a candidate that is current. -/
theorem current_of_syncs (hsound : node.state.Sound node.claimed) {a : Attempt}
    (hsyncs : node.syncs event = true) (hattempt : (node.step event).attempt = some a)
    (hgoes : a.stage.returned = false) :
    (node.step event).state.isCurrent a.candidate = true := by
  cases event with
  | begin now =>
      have hmay : node.mayBegin = true := hsyncs
      rw [step_begin hmay] at hattempt ⊢
      obtain rfl := Option.some.inj hattempt
      rw [claimed_of_mayBegin hmay] at hsound
      have hledger := Attempt.sameLedger_start node.setup node.state now
      have hpending := NodeState.pending_buildCandidate hsound.tidy.orderly node.setup.miner now
      rw [← (Attempt.start_cases node.setup node.state now).1] at hpending
      rcases Attempt.start_of_sound node.setup hsound now with
        ⟨-, -, hended⟩ | ⟨-, -, -, hcandidate⟩
      · exact absurd hended (by rw [Attempt.result?_of_unreturned hgoes]; simp)
      · rw [NodeState.isCurrent, hpending, hledger.chain, hcandidate]
        exact decide_eq_true ⟨rfl, rfl⟩
  | mine event =>
      cases hbefore : node.attempt with
      | none =>
          rw [syncs, hbefore] at hsyncs
          exact absurd hsyncs Bool.false_ne_true
      | some before =>
          rw [syncs, hbefore] at hsyncs
          rw [step_mine hbefore rfl] at hattempt ⊢
          obtain rfl := Option.some.inj hattempt
          obtain ⟨now, anew, hok, hstate⟩ :=
            Attempt.resynced_of_resyncs node.setup hsyncs hgoes
          rw [claimed_of_running hbefore (Attempt.result?_of_resyncs hsyncs)] at hsound
          show (before.step node.setup node.state event).1.isCurrent _ = true
          rw [hstate]
          exact (hsound.current_of_resync hok).2
  | _ => exact absurd hsyncs Bool.false_ne_true

/-- What resyncing makes of the candidate of an attempt at the end of a run, where `t` is the state
that it leaves. -/
structure Refreshes (node : Node) (events : List NodeEvent) (a : Attempt) (now : UInt64)
    (t : NodeState) (answer : Except MiningError (Bool × Block)) : Prop where
  /-- The candidate to go on with extends the tip and holds what waits, in order and marked. -/
  current : ∀ anew next, answer = .ok (anew, next) →
    next.previous = t.chain.tipDigest ∧ next.transactions = t.pool.pending ∧
      ∀ tx ∈ next.transactions, t.pool.status? tx.digest = some .mining
  /-- It suits the tip, an old one as far as digests tell the blocks of the chain apart. -/
  suits : ∀ anew next, answer = .ok (anew, next) →
    (anew = false → Distinguished (node.run events).state.chain.blocks) →
      next.difficulty = t.nextDifficulty ∧ t.chain.tip.timestamp ≤ next.timestamp
  /-- It is an old one exactly when neither the tip nor what waits has changed since the candidate
  was last drawn up or compared. -/
  kept_iff : ∃ early event late, events = early ++ event :: late ∧
    (node.run early).syncs event = true ∧ (node.run (early ++ [event])).Quiet late ∧
      ((∃ next, answer = .ok (false, next)) ↔
        (node.run events).state.chain.tipDigest =
            (node.run (early ++ [event])).state.chain.tipDigest ∧
          (node.run events).state.pool.pending =
            (node.run (early ++ [event])).state.pool.pending)
  kept : ∀ next, answer = .ok (false, next) → next = a.candidate
  /-- One that is drawn up anew has no nonce, no time and no verifiers. -/
  anew : ∀ next, answer = .ok (true, next) → next.nonce = 0 ∧ next.miningTime = .zero ∧
    next.preVerifiers = [] ∧ next.preSignatures = [] ∧ next.verifiers = [] ∧ next.signatures = []
  /-- There is none exactly when nothing waits. -/
  dry_iff : answer = .error .poolDry ↔ t.pool.pending = []
  /-- Then, and for no other reason, the attempt keeps the one it has. -/
  dry : ∀ error, answer = .error error → error = .poolDry ∧
    (Attempt.afterResync (node.run events).state a now).2.candidate = a.candidate ∧
      ∀ round, (node.run events).state.chain.tipDigest ≠ a.candidate.previous →
        (Attempt.settle (node.run events).state a round now).2.candidate = a.candidate
  chain : t.chain = (node.run events).state.chain
  /-- Resyncing again changes nothing. -/
  again : ∀ anew next, answer = .ok (anew, next) → ∀ later,
    (t.resync next later).2 = .ok (false, next) ∧ t.Alike (t.resync next later).1

/-- **Resyncing brings the candidate of an attempt up to date**, whatever happened since it was
drawn up, until the attempt returns. -/
theorem resync_refreshes (identity : Identity) (peers : List Address) (p : Params) (s : NodeState)
    (archive : Option Archive) (events : List NodeEvent)
    (hstart : s = .start p ∨ ∃ saved : Archive, saved.load p = .ok (some s)) {a : Attempt}
    (hattempt : ((ofState identity peers p s archive).run events).attempt = some a)
    (hgoes : a.stage.returned = false) (now : UInt64) :
    (ofState identity peers p s archive).Refreshes events a now
      (((ofState identity peers p s archive).run events).state.resync a.candidate now).1
      (((ofState identity peers p s archive).run events).state.resync a.candidate now).2 := by
  have horigin : (ofState identity peers p s archive).state.Sound
      (ofState identity peers p s archive).claimed := NodeState.sound_of_origin hstart
  have hnone : (ofState identity peers p s archive).attempt = none := rfl
  generalize ofState identity peers p s archive = node at *
  have hrunning := Attempt.result?_of_unreturned hgoes
  have hsound := sound_run events horigin
  rw [claimed_of_running hattempt hrunning] at hsound
  have hnonempty := nonempty_run hnone horigin events a hattempt hrunning
  have hchain := (NodeState.sameLedger_resync (node.run events).state a.candidate now).chain
  have hrules := (NodeState.sameLedger_resync (node.run events).state a.candidate now).rules
  have hpending := NodeState.pending_resync hsound.tidy.orderly a.candidate now
  refine ⟨?_, ?_, ?_, fun next => NodeState.resync_unbuilt, ?_, ?_, ?_, hchain, ?_⟩
  · intro anew next hok
    obtain ⟨hnext, hcurrent⟩ := hsound.current_of_resync hok
    obtain ⟨hprevious, htransactions⟩ := of_decide_eq_true hcurrent
    exact ⟨hprevious.symm, htransactions.symm,
      fun tx htx => (hnext.tidy.mining tx (htransactions ▸ htx)).mpr htx⟩
  · intro anew next hok hnames
    rw [NodeState.nextDifficulty, hrules, hchain]
    cases anew with
    | false =>
        have hsuited := suited_run hnone horigin events (hnames rfl) a hattempt hrunning
        obtain rfl := NodeState.resync_unbuilt hok
        exact hsuited.onTip (NodeState.previous_of_resync hok)
    | true =>
        obtain ⟨-, rfl, -⟩ := hsound.resync_anew hok
        exact ⟨rfl, NodeState.tip_le_freshCandidate _ _ now⟩
  · obtain ⟨early, event, late, rfl, hsyncs, hquiet, hcurrent⟩ :=
      exists_sync (P := fun s a => s.isCurrent a.candidate = true) hnone
        (fun early event a hsyncs hattempt hgoes => by
          rw [run_concat] at hattempt ⊢
          exact current_of_syncs (sound_run early horigin) hsyncs hattempt hgoes)
        (fun s before a hunmoved hcurrent => by
          rwa [NodeState.isCurrent, hunmoved.draft.previous, hunmoved.draft.transactions])
        events hattempt hgoes
    obtain ⟨hprevious, htransactions⟩ := of_decide_eq_true hcurrent
    refine ⟨early, event, late, rfl, hsyncs, hquiet, ?_⟩
    rw [hprevious, htransactions]
    exact hsound.resync_kept_iff now
  · intro next hok
    obtain ⟨-, rfl, -⟩ := hsound.resync_anew hok
    exact ⟨rfl, rfl, rfl, rfl, rfl, rfl⟩
  · rw [hpending]
    exact hsound.resync_dry_iff hnonempty now
  · intro error herror
    exact ⟨hsound.resync_error_eq herror, Attempt.candidate_of_resync_error herror⟩
  · intro anew next hok later
    obtain ⟨hnext, hcurrent⟩ := hsound.current_of_resync hok
    exact hnext.resync_of_current hcurrent later

/-- What happens to a node that is overtaken by another miner as soon as it has begun. -/
def overtakenEvents : List NodeEvent :=
  [.submit ⟨.zero, .zero, 1, 2⟩, .begin 3, .offer 7 (rivalBy ⟨[1]⟩)]

theorem resync_refreshes_overtaken :
    ∃ (node : Node) (a : Attempt),
      (fresh ⟨1, by decide, by decide⟩ [] .easiest none).run overtakenEvents = node ∧
      node.attempt = some a ∧ a.stage.returned = false ∧
      (fresh ⟨1, by decide, by decide⟩ [] .easiest none).Refreshes overtakenEvents a 8
        (node.state.resync a.candidate 8).1 (node.state.resync a.candidate 8).2 := by
  obtain ⟨a, hattempt, hstage, -, -⟩ :=
    begin_of_submitted ⟨1, by decide, by decide⟩ [] .easiest none ⟨.zero, .zero, 1, 2⟩ 3
  have hgoes : a.stage.returned = false := by
    rw [hstage]
    rfl
  have hbegun := @upToDate_of_syncs ((fresh ⟨1, by decide, by decide⟩ [] .easiest none).run
    [.submit ⟨.zero, .zero, 1, 2⟩]) (.begin 3) a rfl hattempt hgoes
  obtain ⟨hoffered, -⟩ := offered_rivalBy
    (sameLedger_begin_of_submitted ⟨1, by decide, by decide⟩ [] .easiest none
      ⟨.zero, .zero, 1, 2⟩ 3) hattempt hbegun.seen ⟨[1]⟩
  exact ⟨_, a, rfl, hoffered, hgoes, resync_refreshes ⟨1, by decide, by decide⟩ [] .easiest
    (.start .easiest) none overtakenEvents (Or.inl rfl) hoffered hgoes 8⟩

end Node

end AttestedLedger
