/-
What one step of an attempt can do.

`Attempt.Effect` lists what a step of an attempt can do to the state it shares and to what
the attempt holds of it: the candidate's transactions and parent, and the count of the
signal it has seen.  There is one lemma for each piece of a step, and `step_effect` puts
them together.  An invariant that reads no more of the attempt than this is one case for
each constructor, and no case looks at stages or purposes.
-/
import AttestedLedger.Mining.Attempt
import AttestedLedger.Proofs.Ledger.Upkeep
import AttestedLedger.Proofs.Mining.Search

namespace AttestedLedger

/-! ### Building and resyncing, seen from outside -/

namespace NodeState

/-- What is built is a candidate of what is left in the pool after pruning. -/
theorem eq_freshCandidate_of_buildCandidate {s built : NodeState} {miner : MinerKey} {now : UInt64}
    {block : Block} (h : s.buildCandidate miner now = (built, .ok block)) :
    block = ({ s with pool := s.pool.prune } : NodeState).freshCandidate miner now := by
  rw [buildCandidate] at h
  cases hlink : s.chain.checkTipLink with
  | error e =>
      rw [hlink] at h
      exact absurd (Prod.mk.inj h).2 (by simp)
  | ok _ =>
      rw [hlink] at h
      dsimp only at h
      split at h
      · exact absurd (Prod.mk.inj h).2 (by simp)
      · exact (Except.ok.inj (Prod.mk.inj h).2).symm

/-- A candidate that is not built anew is the one that was given. -/
theorem resync_unbuilt {s : NodeState} {block kept : Block} {now : UInt64}
    (h : (s.resync block now).2 = .ok (false, kept)) : kept = block := by
  rw [resync] at h
  split at h
  · exact absurd h (by simp)
  dsimp only at h
  split at h
  · exact ((Prod.mk.inj (Except.ok.inj h)).2).symm
  · -- a build never answers `false`
    generalize (NodeState.buildCandidate _ block.miner now) = built at h
    obtain ⟨t, outcome⟩ := built
    cases outcome with
    | error e => exact absurd h (by simp [Except.map])
    | ok fresh => exact absurd h (by simp [Except.map])

/-- **A candidate that is built or kept extends the tip.** -/
theorem previous_of_resync {s : NodeState} {block next : Block} {now : UInt64} {anew : Bool}
    (h : (s.resync block now).2 = .ok (anew, next)) : next.previous = s.chain.tipDigest := by
  rw [resync] at h
  split at h
  · exact absurd h (by simp)
  dsimp only at h
  split at h
  · rename_i hcurrent
    obtain ⟨-, rfl⟩ := Prod.mk.inj (Except.ok.inj h)
    exact (of_decide_eq_true hcurrent).1.symm
  · generalize hbuilt : NodeState.buildCandidate _ block.miner now = built at h
    obtain ⟨t, outcome⟩ := built
    cases outcome with
    | error e => exact absurd h (by simp [Except.map])
    | ok fresh =>
        obtain ⟨-, rfl⟩ := Prod.mk.inj (Except.ok.inj h)
        rw [eq_freshCandidate_of_buildCandidate hbuilt]
        rfl

end NodeState

/-- Two blocks built in the same way, whatever nonce, time and verifiers they have. -/
structure Block.SameDraft (block other : Block) : Prop where
  miner : other.miner = block.miner
  transactions : other.transactions = block.transactions
  difficulty : other.difficulty = block.difficulty
  timestamp : other.timestamp = block.timestamp
  previous : other.previous = block.previous

theorem Block.SameDraft.refl (block : Block) : SameDraft block block := ⟨rfl, rfl, rfl, rfl, rfl⟩

/-- Whether a stage is the last. -/
def Stage.ends : Stage → Bool
  | .finished _ => true
  | _ => false

namespace Attempt

/-! ### Steps of an attempt -/

/-- What stays of an attempt while it calls peers or searches. -/
structure Worked (a a' : Attempt) : Prop extends Block.SameDraft a.candidate a'.candidate where
  still : a'.result? = none
  seen : a'.seen = a.seen

/-- What a step of an attempt can do.  The attempt that is under way has no result yet. -/
inductive Effect (s : NodeState) (a : Attempt) : NodeState → Attempt → Prop where
  | idle : Effect s a s a
  /-- The attempt leaves the state alone. -/
  | worked (a' : Attempt) (running : a.result? = none) (worked : Worked a a') : Effect s a s a'
  | resynced (a' : Attempt) (now : UInt64) (anew : Bool) (running : a.result? = none)
      (still : a'.result? = none)
      (outcome : (s.resync a.candidate now).2 = .ok (anew, a'.candidate))
      (seen : a'.seen = s.signal.raised) : Effect s a (s.resync a.candidate now).1 a'
  /-- There is no candidate to go on with, and the old one is still to be given back. -/
  | unsynced (a' : Attempt) (now : UInt64) (error : MiningError) (running : a.result? = none)
      (still : a'.result? = none) (outcome : (s.resync a.candidate now).2 = .error error)
      (candidate : a'.candidate = a.candidate) : Effect s a (s.resync a.candidate now).1 a'
  /-- The closing round reached its quorum, and the tip has not moved. -/
  | completed (a' : Attempt) (round : AttestationRound) (running : a.result? = none)
      (stage : a.stage = .settling round) (quorum : round.hasQuorum = true)
      (onTip : a.candidate.previous = s.chain.tipDigest)
      (candidate : a'.candidate = withPostSet a.candidate round)
      (result : a'.result? = some (.ok a'.candidate)) :
      Effect s a { s with pool := (s.pool.markMined a'.candidate.transactions).prune } a'
  | released (a' : Attempt) (error : MiningError) (running : a.result? = none)
      (result : a'.result? = some (.error error)) : Effect s a (s.release a.candidate) a'

theorem result?_conclude (a : Attempt) (result : Except MiningError Block) :
    (a.conclude result).result? = some result := by
  cases result <;> rfl

theorem result?_eq_none {a : Attempt} {stage : Stage} (h : a.stage = stage)
    (hstage : stage.ends = false) : a.result? = none := by
  rw [result?, h]
  cases stage with
  | finished result => exact absurd hstage (by simp [Stage.ends])
  | _ => rfl

theorem worked_closeRound (a : Attempt) (purpose : RoundPurpose) (round : AttestationRound) :
    Worked a (a.closeRound purpose round) := by
  cases purpose with
  | opening => exact ⟨⟨rfl, rfl, rfl, rfl, rfl⟩, rfl, rfl⟩
  | topUp => exact ⟨⟨rfl, rfl, rfl, rfl, rfl⟩, rfl, rfl⟩
  | closing => exact ⟨⟨rfl, rfl, rfl, rfl, rfl⟩, rfl, rfl⟩
  | resealing =>
      rw [closeRound]
      split
      · exact ⟨⟨rfl, rfl, rfl, rfl, rfl⟩, rfl, rfl⟩
      · exact ⟨⟨rfl, rfl, rfl, rfl, rfl⟩, rfl, rfl⟩

theorem worked_continueRound (a : Attempt) (purpose : RoundPurpose) (payload : Bytes)
    (eligible : List MinerKey) (c : Collection) :
    Worked a (a.continueRound purpose payload eligible c) := by
  rw [continueRound]
  split
  · exact worked_closeRound a purpose c.round
  · exact ⟨⟨rfl, rfl, rfl, rfl, rfl⟩, rfl, rfl⟩

/-- What a slice of the search makes of an attempt. -/
inductive Sliced (a : Attempt) (elapsed : Duration) : Attempt → Prop where
  /-- No nonce was found, or one that the candidate cannot use. -/
  | goesOn (nonce : UInt64) (hashes : Nat) (stage : Stage)
      (next : stage = .calling .resealing ∧ a.preQuorum = false ∨ stage = .resyncing ∨
        ∃ tried, stage = .searching tried) :
      Sliced a elapsed { a with candidate := { a.candidate with nonce }, hashes, stage }
  | found (nonce : UInt64) (hashes : Nat) (quorum : a.preQuorum = true)
      (work : Block.hasWork { a.candidate with nonce } = true) :
      Sliced a elapsed
        { a with
          candidate := { a.candidate with nonce, miningTime := elapsed }
          hashes
          phase := .verifying
          stage := .calling .closing }

theorem sliced_searchSlice (setup : MinerSetup) (s : NodeState) (a : Attempt) (tried : Nat)
    (elapsed : Duration) : Sliced a elapsed (searchSlice setup s a tried elapsed) := by
  rw [searchSlice]
  dsimp only
  generalize hsize : min setup.checkInterval (setup.noncesPerRound - tried) = size
  have hblock := Search.round_block size size (fun _ => false) ⟨a.candidate, a.hashes, 0⟩
  have hwork : ∀ digest, (Search.round size size (fun _ => false) ⟨a.candidate, a.hashes, 0⟩).1 =
      .found digest → (Search.round size size (fun _ => false)
        ⟨a.candidate, a.hashes, 0⟩).2.block.hasWork = true :=
    fun _ => Search.hasWork_of_round_found
  generalize Search.round size size (fun _ => false) ⟨a.candidate, a.hashes, 0⟩ = slice
    at hblock hwork ⊢
  obtain ⟨outcome, block, hashes, polls⟩ := slice
  obtain ⟨nonce, rfl⟩ : ∃ nonce, block = { a.candidate with nonce } := hblock
  dsimp only at hwork ⊢
  split
  · split
    · rename_i hquorum
      exact .found nonce hashes hquorum (hwork _ rfl)
    · rename_i hshort
      exact .goesOn nonce hashes _ (Or.inl ⟨rfl, Bool.not_eq_true _ ▸ hshort⟩)
  · split
    · exact .goesOn nonce hashes _ (Or.inr (Or.inl rfl))
    · exact .goesOn nonce hashes _ (Or.inr (Or.inr ⟨_, rfl⟩))

theorem Sliced.worked {a a' : Attempt} {elapsed : Duration} (h : Sliced a elapsed a') :
    Worked a a' := by
  cases h with
  | goesOn nonce hashes stage next =>
      refine ⟨⟨rfl, rfl, rfl, rfl, rfl⟩, result?_eq_none rfl ?_, rfl⟩
      rcases next with ⟨rfl, -⟩ | rfl | ⟨_, rfl⟩ <;> rfl
  | found nonce hashes quorum work => exact ⟨⟨rfl, rfl, rfl, rfl, rfl⟩, rfl, rfl⟩

/-! ### Where resyncing leads -/

/-- The attempt with a candidate built anew. -/
def rebuilt (a : Attempt) (s : NodeState) (block : Block) : Attempt :=
  { a with candidate := block, seen := s.signal.raised, stage := .calling .opening }

/-- The attempt that has no candidate to go on with. -/
def givenUp (a : Attempt) (s : NodeState) (error : MiningError) : Attempt :=
  { a with seen := s.signal.raised, stage := .releasing error }

/-- Between two rounds of the search. -/
theorem afterResync_cases (s : NodeState) (a : Attempt) (now : UInt64) :
    (∃ kept, (s.resync a.candidate now).2 = .ok (false, kept) ∧
      afterResync s a now = ((s.resync a.candidate now).1, { a with
        seen := s.signal.raised
        stage := if a.preQuorum then .searching 0 else .calling .topUp })) ∨
    (∃ block, (s.resync a.candidate now).2 = .ok (true, block) ∧
      afterResync s a now = ((s.resync a.candidate now).1, a.rebuilt s block)) ∨
    ∃ error, (s.resync a.candidate now).2 = .error error ∧
      afterResync s a now = ((s.resync a.candidate now).1, a.givenUp s error) := by
  rw [afterResync]
  dsimp only
  generalize s.resync a.candidate now = resynced
  obtain ⟨t, e | ⟨anew, block⟩⟩ := resynced
  · exact Or.inr (Or.inr ⟨e, rfl, rfl⟩)
  · cases anew with
    | true => exact Or.inr (Or.inl ⟨block, rfl, rfl⟩)
    | false => exact Or.inl ⟨block, rfl, rfl⟩

/-- When the tip has moved before the block is finished. -/
theorem settle_cases {s : NodeState} {a : Attempt} (htip : s.chain.tipDigest ≠ a.candidate.previous)
    (round : AttestationRound) (now : UInt64) :
    (∃ anew block, (s.resync a.candidate now).2 = .ok (anew, block) ∧
      settle s a round now = ((s.resync a.candidate now).1, a.rebuilt s block)) ∨
    ∃ error, (s.resync a.candidate now).2 = .error error ∧
      settle s a round now = ((s.resync a.candidate now).1, a.givenUp s error) := by
  rw [settle, if_pos htip]
  dsimp only
  generalize s.resync a.candidate now = resynced
  obtain ⟨t, e | ⟨anew, block⟩⟩ := resynced
  · exact Or.inr ⟨e, rfl, rfl⟩
  · exact Or.inl ⟨anew, block, rfl, rfl⟩

theorem effect_rebuilt {s : NodeState} {a : Attempt} (hrunning : a.result? = none) {now : UInt64}
    {anew : Bool} {block : Block} (hok : (s.resync a.candidate now).2 = .ok (anew, block)) :
    Effect s a (s.resync a.candidate now).1 (a.rebuilt s block) :=
  .resynced (a.rebuilt s block) now anew hrunning (result?_eq_none rfl rfl) hok rfl

theorem effect_givenUp {s : NodeState} {a : Attempt} (hrunning : a.result? = none) {now : UInt64}
    {error : MiningError} (herror : (s.resync a.candidate now).2 = .error error) :
    Effect s a (s.resync a.candidate now).1 (a.givenUp s error) :=
  .unsynced (a.givenUp s error) now error hrunning (result?_eq_none rfl rfl) herror rfl

theorem effect_afterResync (s : NodeState) {a : Attempt} (hrunning : a.result? = none)
    (now : UInt64) : Effect s a (afterResync s a now).1 (afterResync s a now).2 := by
  rcases afterResync_cases s a now with
    ⟨kept, hkept, hnext⟩ | ⟨block, hok, hnext⟩ | ⟨error, herror, hnext⟩
  · rw [hnext]
    obtain rfl := NodeState.resync_unbuilt hkept
    refine .resynced _ now false hrunning (result?_eq_none rfl ?_) hkept rfl
    dsimp only
    split <;> rfl
  · rw [hnext]
    exact effect_rebuilt hrunning hok
  · rw [hnext]
    exact effect_givenUp hrunning herror

theorem effect_settle (s : NodeState) {a : Attempt} {round : AttestationRound}
    (hstage : a.stage = .settling round) (now : UInt64) :
    Effect s a (settle s a round now).1 (settle s a round now).2 := by
  have hrunning : a.result? = none := result?_eq_none hstage rfl
  by_cases htip : s.chain.tipDigest = a.candidate.previous
  · rw [settle, if_neg (not_not_intro htip)]
    split
    · exact .worked _ hrunning ⟨.refl _, rfl, rfl⟩
    · rename_i hquorum
      rw [Bool.not_eq_true', Bool.not_eq_false] at hquorum
      exact .completed ({ a with candidate := withPostSet a.candidate round }.conclude (.ok _))
        round hrunning hstage hquorum htip.symm rfl rfl
  · rcases settle_cases htip round now with ⟨anew, block, hok, hnext⟩ | ⟨error, herror, hnext⟩
    · rw [hnext]
      exact effect_rebuilt hrunning hok
    · rw [hnext]
      exact effect_givenUp hrunning herror

/-! ### All steps -/

/-- **Every step of an attempt has one of the listed effects.** -/
theorem step_effect (setup : MinerSetup) (s : NodeState) (a : Attempt) (event : AttemptEvent) :
    Effect s a (a.step setup s event).1 (a.step setup s event).2 := by
  unfold step
  split
  · rename_i purpose hstage
    exact .worked _ (result?_eq_none hstage rfl) (worked_continueRound a _ _ _ _)
  · rename_i hstage
    split
    · exact .worked _ (result?_eq_none hstage rfl) (worked_continueRound a _ _ _ _)
    · exact .idle
  · rename_i hstage
    exact .worked _ (result?_eq_none hstage rfl) (sliced_searchSlice setup s a _ _).worked
  · rename_i hstage
    exact .worked _ (result?_eq_none hstage rfl) ⟨.refl _, rfl, rfl⟩
  · rename_i hstage
    exact effect_afterResync s (result?_eq_none hstage rfl) _
  · rename_i hstage
    exact effect_settle s hstage _
  · rename_i e now hstage
    exact .released _ e (result?_eq_none hstage rfl) (result?_conclude a (.error e))
  · exact .idle

/-- Nothing happens to an attempt that is over. -/
theorem step_of_ended (setup : MinerSetup) (s : NodeState) {a : Attempt} (event : AttemptEvent)
    {result : Except MiningError Block} (h : a.result? = some result) :
    a.step setup s event = (s, a) := by
  have hstage : a.stage = .finished result := by
    rw [result?] at h
    split at h
    · rename_i hfinished
      rw [hfinished, Option.some.inj h]
    · exact absurd h (by simp)
  unfold step
  rw [hstage]

/-- An attempt finishes a block in one way only. -/
theorem Effect.finished {s s' : NodeState} {a a' : Attempt} (h : Effect s a s' a')
    (hrunning : a.result? = none) {block : Block} (hdone : a'.result? = some (.ok block)) :
    (a'.candidate = block ∧
      s' = { s with pool := (s.pool.markMined block.transactions).prune }) ∧
      ∃ round, a.stage = .settling round ∧ round.hasQuorum = true ∧
        a.candidate.previous = s.chain.tipDigest ∧ block = withPostSet a.candidate round := by
  -- the other effects leave no result or an error
  have hnot : a'.result? ≠ none := by
    rw [hdone]
    simp
  cases h with
  | idle => exact absurd hrunning hnot
  | worked _ _ worked => exact absurd worked.still hnot
  | resynced _ _ _ _ still => exact absurd still hnot
  | unsynced _ _ _ _ still => exact absurd still hnot
  | completed _ round _ stage quorum onTip candidate result =>
      rw [result] at hdone
      obtain rfl := Except.ok.inj (Option.some.inj hdone)
      exact ⟨⟨rfl, rfl⟩, round, stage, quorum, onTip, candidate⟩
  | released _ error _ result =>
      rw [result] at hdone
      exact absurd hdone (by simp)

/-- No step of an attempt touches the ledger. -/
theorem Effect.sameLedger {s s' : NodeState} {a a' : Attempt} (h : Effect s a s' a') :
    s.SameLedger s' := by
  cases h with
  | idle => exact .refl s
  | worked => exact .refl s
  | resynced _ now => exact NodeState.sameLedger_resync s a.candidate now
  | unsynced _ now => exact NodeState.sameLedger_resync s a.candidate now
  | completed => exact ⟨rfl, rfl, rfl⟩
  | released => exact ⟨rfl, rfl, rfl⟩

/-- **A candidate stays as it was drawn up, or is built anew**, until the attempt ends. -/
theorem Effect.draft {s s' : NodeState} {a a' : Attempt} (h : Effect s a s' a')
    (hstill : a'.result? = none) :
    Block.SameDraft a.candidate a'.candidate ∨
      ∃ now, (s.resync a.candidate now).2 = .ok (true, a'.candidate) ∧
        s' = (s.resync a.candidate now).1 := by
  cases h with
  | idle => exact Or.inl (.refl _)
  | worked _ _ worked => exact Or.inl worked.toSameDraft
  | resynced _ now anew _ _ outcome =>
      cases anew with
      | true => exact Or.inr ⟨now, outcome, rfl⟩
      | false =>
          rw [NodeState.resync_unbuilt outcome]
          exact Or.inl (.refl _)
  | unsynced _ _ _ _ _ _ candidate =>
      rw [candidate]
      exact Or.inl (.refl _)
  | completed _ _ _ _ _ _ _ result => exact absurd (result.symm.trans hstill) (by simp)
  | released _ _ _ result => exact absurd (result.symm.trans hstill) (by simp)

/-- An attempt starts with a candidate, or ends at once. -/
theorem start_cases (setup : MinerSetup) (s : NodeState) (now : UInt64) :
    (start setup s now).1 = (s.buildCandidate setup.miner now).1 ∧
      ((∃ block, (s.buildCandidate setup.miner now).2 = .ok block ∧
          (start setup s now).2.stage = .calling .opening ∧
          (start setup s now).2.candidate = block) ∨
        ∃ e, (s.buildCandidate setup.miner now).2 = .error e ∧
          (start setup s now).2.result? = some (.error e)) := by
  rw [start]
  dsimp only
  generalize s.buildCandidate setup.miner now = built
  obtain ⟨t, outcome⟩ := built
  cases outcome with
  | error e => exact ⟨rfl, Or.inr ⟨e, rfl, rfl⟩⟩
  | ok block => exact ⟨rfl, Or.inl ⟨block, rfl, rfl, rfl⟩⟩

theorem sameLedger_start (setup : MinerSetup) (s : NodeState) (now : UInt64) :
    s.SameLedger (start setup s now).1 := by
  rw [(start_cases setup s now).1]
  exact NodeState.sameLedger_buildCandidate s setup.miner now

/-- **What an attempt starts with**: everything that waits, in a state of which nothing is taken. -/
theorem start_of_sound (setup : MinerSetup) {s : NodeState} (h : s.Sound []) (now : UInt64) :
    (s.pool.pending = [] ∧ (start setup s now).1.Tidy [] ∧
      (start setup s now).2.result? = some (.error .poolDry)) ∨
    (s.pool.pending ≠ [] ∧ (start setup s now).1.Tidy s.pool.pending ∧
      (start setup s now).2.stage = .calling .opening ∧
      (start setup s now).2.candidate = s.freshCandidate setup.miner now) := by
  obtain ⟨hstate, hcases⟩ := start_cases setup s now
  rw [hstate]
  rcases h.tidy.build_cases h.anchored.link setup.miner now with
    ⟨hempty, hdry, htidy⟩ | ⟨hwaiting, hbuilt, htidy⟩
  · rcases hcases with ⟨block, hok, -, -⟩ | ⟨e, herror, hended⟩
    · rw [hdry] at hok
      exact absurd hok (by simp)
    · obtain rfl := Except.error.inj (hdry.symm.trans herror)
      exact Or.inl ⟨hempty, htidy, hended⟩
  · rcases hcases with ⟨block, hok, hstage, hcandidate⟩ | ⟨e, herror, -⟩
    · obtain rfl := Except.ok.inj (hbuilt.symm.trans hok)
      exact Or.inr ⟨hwaiting, htidy, hstage, hcandidate⟩
    · rw [hbuilt] at herror
      exact absurd herror (by simp)

end Attempt

end AttestedLedger
