/-
No change of the tip is missed by a search.

An attempt works on a candidate while other tasks extend the chain.  It notices by the signal:
what it has seen of it is brought up to date only together with the candidate, when it begins,
between two rounds of the search, and when the finished block turns out to be stale.  Such an
event `syncs` the attempt; every other step leaves alone both what was seen and the parent of
the candidate.

So an attempt that goes on was last synced at some event of the run, saw the signal as it was
then and stands on the tip of then (`SyncedAt`).  Whatever was accepted since extends the chain
and raises the signal by the same number.
-/
import AttestedLedger.Proofs.Node.Production

namespace AttestedLedger

/-- Whether a step has returned, an error or a block. -/
def Stage.returned : Stage → Bool
  | .releasing _ | .finished _ => true
  | _ => false

namespace Attempt

/-! ### One step of an attempt -/

/-- Whether an action compares the candidate with tip and pool and builds it anew if need be. -/
def resyncs (s : NodeState) (a : Attempt) (event : AttemptEvent) : Bool :=
  match a.stage, event with
  | .resyncing, .proceed _ => true
  | .settling _, .proceed _ => s.chain.tipDigest ≠ a.candidate.previous
  | _, _ => false

/-- The attempt has seen the signal as it is, and its candidate extends the tip. -/
structure UpToDate (s : NodeState) (a : Attempt) : Prop where
  seen : a.seen = s.signal.raised
  onTip : a.candidate.previous = s.chain.tipDigest

theorem UpToDate.of_sameLedger {s t : NodeState} {a : Attempt} (h : a.UpToDate s)
    (hsame : s.SameLedger t) : a.UpToDate t where
  seen := by rw [hsame.signal]; exact h.seen
  onTip := by rw [hsame.chain]; exact h.onTip

/-- What a step leaves alone that does not resync. -/
structure Unmoved (a a' : Attempt) : Prop where
  unreturned : a.stage.returned = false
  seen : a'.seen = a.seen
  draft : Block.SameDraft a.candidate a'.candidate

theorem UpToDate.of_unmoved {s : NodeState} {a a' : Attempt} (h : a.UpToDate s)
    (hunmoved : Unmoved a a') : a'.UpToDate s where
  seen := hunmoved.seen.trans h.seen
  onTip := hunmoved.draft.previous.trans h.onTip

variable {s : NodeState} {a : Attempt}

theorem Worked.unmoved {a' : Attempt} (h : Worked a a') (hunreturned : a.stage.returned = false) :
    Unmoved a a' :=
  ⟨hunreturned, h.seen, h.toSameDraft⟩

/-- An attempt starts up to date, or not at all. -/
theorem upToDate_start {setup : MinerSetup} {now : UInt64}
    (hgoes : (start setup s now).2.stage.returned = false) :
    (start setup s now).2.UpToDate s := by
  unfold start at hgoes ⊢
  generalize hbuilt : s.buildCandidate setup.miner now = built at hgoes ⊢
  obtain ⟨t, e | block⟩ := built
  · exact absurd hgoes (by simp [conclude, Stage.returned])
  · refine ⟨rfl, ?_⟩
    show block.previous = _
    rw [NodeState.eq_freshCandidate_of_buildCandidate hbuilt]
    rfl

/-- Between two rounds of the search an attempt is brought up to date, or gives up. -/
theorem upToDate_afterResync (now : UInt64)
    (hgoes : (afterResync s a now).2.stage.returned = false) :
    (afterResync s a now).2.UpToDate s := by
  rcases afterResync_cases s a now with
    ⟨kept, hkept, hnext⟩ | ⟨block, hok, hnext⟩ | ⟨error, -, hnext⟩
  · rw [hnext]
    exact ⟨rfl, NodeState.resync_unbuilt hkept ▸ NodeState.previous_of_resync hkept⟩
  · rw [hnext]
    exact ⟨rfl, NodeState.previous_of_resync hok⟩
  · rw [hnext] at hgoes
    exact absurd hgoes (by simp [givenUp, Stage.returned])

/-- So it is when the tip has moved before the block is finished. -/
theorem upToDate_settle (htip : s.chain.tipDigest ≠ a.candidate.previous)
    (round : AttestationRound) (now : UInt64)
    (hgoes : (settle s a round now).2.stage.returned = false) :
    (settle s a round now).2.UpToDate s := by
  rcases settle_cases htip round now with ⟨anew, block, hok, hnext⟩ | ⟨error, -, hnext⟩
  · rw [hnext]
    exact ⟨rfl, NodeState.previous_of_resync hok⟩
  · rw [hnext] at hgoes
    exact absurd hgoes (by simp [givenUp, Stage.returned])

/-- Otherwise settling is the end. -/
theorem settle_onTip (htip : s.chain.tipDigest = a.candidate.previous) (round : AttestationRound)
    (now : UInt64) : (settle s a round now).2.stage.returned = true := by
  rw [settle, if_neg (not_not_intro htip)]
  split <;> rfl

theorem resyncs_cases {event : AttemptEvent} (h : a.resyncs s event = true) :
    ∃ now, event = .proceed now ∧
      (a.stage = .resyncing ∨
        ∃ round, a.stage = .settling round ∧ s.chain.tipDigest ≠ a.candidate.previous) := by
  unfold resyncs at h
  split at h
  · rename_i now hstage
    exact ⟨now, rfl, Or.inl hstage⟩
  · rename_i round now hstage
    exact ⟨now, rfl, Or.inr ⟨round, hstage, of_decide_eq_true h⟩⟩
  · exact absurd h Bool.false_ne_true

/-- **A step that resyncs brings the attempt up to date**, unless it returns. -/
theorem upToDate_of_resyncs (setup : MinerSetup) {event : AttemptEvent}
    (hresyncs : a.resyncs s event = true)
    (hgoes : (a.step setup s event).2.stage.returned = false) :
    (a.step setup s event).2.UpToDate s := by
  obtain ⟨now, rfl, hstage | ⟨round, hstage, htip⟩⟩ := resyncs_cases hresyncs
  · have hstep : a.step setup s (.proceed now) = afterResync s a now := by
      simp only [step, hstage]
    rw [hstep] at hgoes ⊢
    exact upToDate_afterResync now hgoes
  · have hstep : a.step setup s (.proceed now) = settle s a round now := by
      simp only [step, hstage]
    rw [hstep] at hgoes ⊢
    exact upToDate_settle htip round now hgoes

/-- **Any other step leaves alone what the attempt has seen and what it builds on**, unless it
returns. -/
theorem unmoved_of_not_resyncs (setup : MinerSetup) {event : AttemptEvent}
    (hresyncs : a.resyncs s event = false)
    (hgoes : (a.step setup s event).2.stage.returned = false) :
    a.Unmoved (a.step setup s event).2 := by
  revert hgoes
  unfold step
  split
  · rename_i hstage
    intro _
    exact (worked_continueRound a _ _ _ _).unmoved (by rw [hstage]; rfl)
  · rename_i hstage
    intro _
    split
    · exact (worked_continueRound a _ _ _ _).unmoved (by rw [hstage]; rfl)
    · exact ⟨by rw [hstage]; rfl, rfl, .refl _⟩
  · rename_i hstage
    intro _
    exact (sliced_searchSlice setup s a _ _).worked.unmoved (by rw [hstage]; rfl)
  · -- a search that is lost returns
    intro hgoes
    exact absurd hgoes (by simp [Stage.returned])
  · rename_i hstage
    simp [resyncs, hstage] at hresyncs
  · -- settling on the tip returns, with the block or without a quorum
    rename_i round now hstage
    intro hgoes
    have htip : s.chain.tipDigest = a.candidate.previous := by
      simpa [resyncs, hstage] using hresyncs
    exact absurd hgoes (by simp [settle_onTip htip])
  · intro hgoes
    exact absurd hgoes (by simp [conclude, Stage.returned])
  · intro hgoes
    exact ⟨hgoes, rfl, .refl _⟩

end Attempt

namespace Node

/-! ### One event of a node -/

/-- Whether an event builds or resyncs the candidate of the attempt. -/
def syncs (node : Node) : NodeEvent → Bool
  | .begin _ => node.mayBegin
  | .mine event =>
    match node.attempt with
    | none => false
    | some a => a.resyncs node.state event
  | _ => false

/-- No event of these builds or resyncs a candidate. -/
def Quiet (node : Node) : List NodeEvent → Prop
  | [] => True
  | event :: rest => node.syncs event = false ∧ (node.step event).Quiet rest

variable {node : Node}

theorem Quiet.concat {event : NodeEvent} :
    ∀ {events : List NodeEvent} {node : Node}, node.Quiet events →
      (node.run events).syncs event = false → node.Quiet (events ++ [event]) := by
  intro events
  induction events with
  | nil => intro node _ hevent; exact ⟨hevent, trivial⟩
  | cons first rest ih => intro node h hevent; exact ⟨h.1, ih h.2 hevent⟩

/-- **An event that syncs an attempt brings it up to date**, unless the attempt returns. -/
theorem upToDate_of_syncs {event : NodeEvent} {a : Attempt} (hsyncs : node.syncs event = true)
    (hattempt : (node.step event).attempt = some a) (hgoes : a.stage.returned = false) :
    a.UpToDate (node.step event).state := by
  cases event with
  | begin now =>
      rw [step_begin hsyncs] at hattempt ⊢
      obtain rfl := Option.some.inj hattempt
      exact (Attempt.upToDate_start hgoes).of_sameLedger
        (Attempt.sameLedger_start node.setup node.state now)
  | mine event =>
      cases hbefore : node.attempt with
      | none =>
          rw [syncs, hbefore] at hsyncs
          exact absurd hsyncs Bool.false_ne_true
      | some before =>
          rw [syncs, hbefore] at hsyncs
          rw [step_mine hbefore rfl] at hattempt ⊢
          obtain rfl := Option.some.inj hattempt
          have hsame := (Attempt.step_effect node.setup node.state before event).sameLedger
          exact (Attempt.upToDate_of_resyncs node.setup hsyncs hgoes).of_sameLedger hsame
  | _ => exact absurd hsyncs Bool.false_ne_true

/-- **Any other event leaves alone what the attempt has seen and what it builds on.** -/
theorem unmoved_of_not_syncs {event : NodeEvent} {a : Attempt} (hsyncs : node.syncs event = false)
    (hattempt : (node.step event).attempt = some a) (hgoes : a.stage.returned = false) :
    ∃ before, node.attempt = some before ∧ before.Unmoved a := by
  have hkept : node.attempt = some a → ∃ before, node.attempt = some before ∧ before.Unmoved a :=
    fun h => ⟨a, h, hgoes, rfl, .refl _⟩
  have heffect := step_effect node event
  generalize node.step event = next at hattempt heffect
  cases heffect with
  | idle => exact hkept hattempt
  | submitted => exact hkept hattempt
  | appended => exact hkept hattempt
  | began now may => exact absurd (may.symm.trans hsyncs) (by simp)
  | mined event before hbefore =>
      obtain rfl := Option.some.inj hattempt
      rw [syncs, hbefore] at hsyncs
      exact ⟨before, hbefore, Attempt.unmoved_of_not_resyncs node.setup hsyncs hgoes⟩
  | accepted => exact absurd hattempt (by simp)
  | rejected => exact absurd hattempt (by simp)
  | saved => exact hkept hattempt

/-! ### A whole run -/

/-- **What a sync brings about and every other event leaves alone** has held of an attempt that has
not returned since some event of the run. -/
theorem exists_sync {P : NodeState → Attempt → Prop} (hnone : node.attempt = none)
    (hsynced : ∀ early event a, (node.run early).syncs event = true →
      (node.run (early ++ [event])).attempt = some a → a.stage.returned = false →
        P (node.run (early ++ [event])).state a)
    (hunmoved : ∀ s before a, Attempt.Unmoved before a → P s before → P s a)
    (events : List NodeEvent) :
    ∀ {a : Attempt}, (node.run events).attempt = some a → a.stage.returned = false →
      ∃ early event late, events = early ++ event :: late ∧ (node.run early).syncs event = true ∧
        (node.run (early ++ [event])).Quiet late ∧ P (node.run (early ++ [event])).state a := by
  induction events using List.reverseRecOn with
  | nil =>
      intro a hattempt _
      exact absurd (hnone.symm.trans hattempt) (by simp)
  | append_singleton events event ih =>
      intro a hattempt hgoes
      cases hsyncs : (node.run events).syncs event with
      | true => exact ⟨events, event, [], rfl, hsyncs, trivial, hsynced _ _ _ hsyncs hattempt hgoes⟩
      | false =>
          rw [run_concat] at hattempt
          obtain ⟨before, hbefore, hkept⟩ := unmoved_of_not_syncs hsyncs hattempt hgoes
          obtain ⟨early, sync, late, rfl, hsync, hquiet, hholds⟩ := ih hbefore hkept.unreturned
          refine ⟨early, sync, late ++ [event], by simp, hsync, hquiet.concat ?_,
            hunmoved _ _ _ hkept hholds⟩
          rw [← run_append, List.append_assoc]
          exact hsyncs

/-- The attempt was last brought up to date by `event`, which came after the events `early`; of the
events `late` that followed none built or resynced its candidate. -/
structure SyncedAt (node : Node) (a : Attempt) (early : List NodeEvent) (event : NodeEvent)
    (late : List NodeEvent) : Prop where
  syncs : (node.run early).syncs event = true
  quiet : (node.run (early ++ [event])).Quiet late
  upToDate : a.UpToDate (node.run (early ++ [event])).state

/-- **An attempt that has not returned was last brought up to date by some event of the run.** -/
theorem exists_syncedAt (hnone : node.attempt = none) (events : List NodeEvent) {a : Attempt}
    (hattempt : (node.run events).attempt = some a) (hgoes : a.stage.returned = false) :
    ∃ early event late, events = early ++ event :: late ∧ node.SyncedAt a early event late := by
  obtain ⟨early, event, late, rfl, hsyncs, hquiet, hupToDate⟩ :=
    exists_sync (P := fun s a => a.UpToDate s) hnone
      (fun early event a hsyncs hattempt hgoes => by
        rw [run_concat] at hattempt ⊢
        exact upToDate_of_syncs hsyncs hattempt hgoes)
      (fun _ _ _ hunmoved h => h.of_unmoved hunmoved) events hattempt hgoes
  exact ⟨early, event, late, rfl, hsyncs, hquiet, hupToDate⟩

/-- What the signal tells an attempt at the end of a run. -/
structure Alert (node : Node) (events : List NodeEvent) (a : Attempt) : Prop where
  /-- A tip that is no longer the candidate's parent shows. -/
  changed : (node.run events).state.chain.tipDigest ≠ a.candidate.previous →
    (node.run events).state.signal.raised ≠ a.seen
  /-- What shows is a block that was accepted since the candidate was last built or resynced. -/
  accepted : (node.run events).state.signal.raised ≠ a.seen →
    ∃ early event late, events = early ++ event :: late ∧
      (node.run early).syncs event = true ∧ (node.run (early ++ [event])).Quiet late ∧
      (node.run (early ++ [event])).acceptances late ≠ []

/-- **No change of the tip is missed**, and none is imagined: however events come between the steps
of an attempt, until it returns. -/
theorem run_alerts (identity : Identity) (peers : List Address) (p : Params) (s : NodeState)
    (archive : Option Archive) (events : List NodeEvent) {a : Attempt}
    (hattempt : ((ofState identity peers p s archive).run events).attempt = some a)
    (hgoes : a.stage.returned = false) :
    (ofState identity peers p s archive).Alert events a := by
  have hnone : (ofState identity peers p s archive).attempt = none := rfl
  generalize ofState identity peers p s archive = node at *
  obtain ⟨early, event, late, rfl, hsyncs, hquiet, hseen, honTip⟩ :=
    exists_syncedAt hnone events hattempt hgoes
  have hrun : node.run (early ++ event :: late) = (node.run (early ++ [event])).run late := by
    rw [← run_append, List.append_assoc]
    rfl
  obtain ⟨hchain, hraised⟩ := run_accepted late (node.run (early ++ [event]))
  rw [← hrun] at hchain hraised
  refine ⟨fun hmoved hsame => ?_, fun hshows =>
    ⟨early, event, late, rfl, hsyncs, hquiet, fun hnothing => ?_⟩⟩
  · -- a signal that was not raised leaves the chain as the attempt saw it
    rw [hraised, hseen, Nat.add_eq_left, List.length_eq_zero_iff] at hsame
    rw [hchain, hsame, honTip] at hmoved
    exact hmoved rfl
  · rw [hraised, hnothing, hseen] at hshows
    exact hshows rfl

/-- A rival block moves the tip under a candidate, and the signal tells the attempt of it. -/
theorem offered_rivalBy {a : Attempt} (hledger : (NodeState.start .easiest).SameLedger node.state)
    (hattempt : node.attempt = some a) (hseen : a.seen = node.state.signal.raised)
    (miner : MinerKey) :
    (node.step (.offer 7 (rivalBy miner))).attempt = some a ∧
      (node.step (.offer 7 (rivalBy miner))).state.signal.raised ≠ a.seen := by
  rw [step_offer_rivalBy hledger]
  refine ⟨hattempt, ?_⟩
  show node.state.signal.raised + 1 ≠ a.seen
  omega

theorem run_alerts_rival :
    ∃ a, ((fresh ⟨1, by decide, by decide⟩ [] .easiest none).run
        [.submit ⟨.zero, .zero, 1, 2⟩, .begin 3, .offer 7 (rivalBy ⟨[1]⟩)]).attempt = some a ∧
      ((fresh ⟨1, by decide, by decide⟩ [] .easiest none).run
        [.submit ⟨.zero, .zero, 1, 2⟩, .begin 3,
          .offer 7 (rivalBy ⟨[1]⟩)]).state.signal.raised ≠ a.seen ∧
      (fresh ⟨1, by decide, by decide⟩ [] .easiest none).Alert
        [.submit ⟨.zero, .zero, 1, 2⟩, .begin 3, .offer 7 (rivalBy ⟨[1]⟩)] a := by
  obtain ⟨a, hattempt, hstage, -, -⟩ :=
    begin_of_submitted ⟨1, by decide, by decide⟩ [] .easiest none ⟨.zero, .zero, 1, 2⟩ 3
  have hgoes : a.stage.returned = false := by
    rw [hstage]
    rfl
  have hbegun := @upToDate_of_syncs ((fresh ⟨1, by decide, by decide⟩ [] .easiest none).run
    [.submit ⟨.zero, .zero, 1, 2⟩]) (.begin 3) a rfl hattempt hgoes
  obtain ⟨hoffered, hshows⟩ := offered_rivalBy
    (sameLedger_begin_of_submitted ⟨1, by decide, by decide⟩ [] .easiest none
      ⟨.zero, .zero, 1, 2⟩ 3) hattempt hbegun.seen ⟨[1]⟩
  exact ⟨a, hoffered, hshows, run_alerts _ _ _ _ _ _ hoffered hgoes⟩

end Node

end AttestedLedger
