/-
An attempt works towards an acceptable block.

`Rules.Fits` is the part of acceptability that a candidate has as soon as it is built on
the tip; `Attempt.OnTip` adds, stage by stage, what the attempt has achieved for it since:
the first set of verifiers is admitted, the nonce does the work, the round in progress is
genuine for the candidate's payload.  All of it is said of one chain, and only while the
candidate extends that chain's tip.  A candidate whose tip has moved on is owed nothing:
the attempt cannot finish it.

There is one lemma for each piece of a step, and `Ready.step` puts them together.
`Ready.acceptable` is what they lead to.  `step_closes` looks the other way, from a nonce
that the candidate keeps to the step that found it.  The last section shows that an attempt
can get that far: it does so on its own where no verifiers are required and every digest
does the work.
-/
import AttestedLedger.Proofs.Attestation.Round
import AttestedLedger.Proofs.Ledger.Upkeep
import AttestedLedger.Proofs.Mining.Step

namespace AttestedLedger

/-! ### What the work and the attestations cover -/

namespace Block

/-- The time of the search and the second set are not sealed. -/
theorem sealedBytes_finish (block : Block) (time : Duration) (keys : List MinerKey)
    (signatures : List Signature) :
    ({ block with miningTime := time, verifiers := keys, signatures } : Block).sealedBytes =
      block.sealedBytes := by
  rw [sealedBytes, sealedBytes, encodeIn, encodeIn]
  rfl

/-- The work of a block is that of its sealed bytes. -/
theorem hasWork_of_sealedBytes_eq {block other : Block} (h : block.hasWork = true)
    (hsealed : other.sealedBytes = block.sealedBytes)
    (hdifficulty : other.difficulty = block.difficulty) : other.hasWork = true := by
  rw [hasWork, workDigest, hsealed, hdifficulty]
  exact h

theorem hasWork_withMiningTime {block : Block} (h : block.hasWork = true) (time : Duration) :
    ({ block with miningTime := time } : Block).hasWork = true :=
  hasWork_of_sealedBytes_eq h (sealedBytes_finish block time block.verifiers block.signatures) rfl

/-- The second set is not attested. -/
theorem payload_withPostSet (block : Block) (round : AttestationRound) :
    (Attempt.withPostSet block round).payload = block.payload := by
  rw [payload, payload, encodeIn, encodeIn]
  rfl

theorem sealedBytes_withPostSet (block : Block) (round : AttestationRound) :
    (Attempt.withPostSet block round).sealedBytes = block.sealedBytes :=
  sealedBytes_finish block block.miningTime round.keys round.signatures

end Block

/-! ### Candidates -/

namespace Rules

/-- What the rules ask of a candidate that extends the tip, before its work and its verifiers. -/
structure Fits (rules : Rules) (chain : Chain) (now : UInt64) (block : Block) : Prop where
  nonempty : block.transactions ≠ []
  difficulty : block.difficulty = rules.nextDifficulty chain
  notBefore : chain.tip.timestamp ≤ block.timestamp
  notAfter : block.timestamp.toNat ≤ rules.latestTimestamp now
  distinct : (block.transactions.map (·.digest)).Nodup
  fresh : ∀ tx ∈ block.transactions, chain.isFinalized tx.digest = false

variable {rules : Rules} {chain : Chain} {now : UInt64} {block : Block}

/-- Nothing of this depends on nonce, time or verifiers. -/
theorem Fits.congr (h : rules.Fits chain now block) {other : Block}
    (htransactions : other.transactions = block.transactions)
    (hdifficulty : other.difficulty = block.difficulty)
    (htimestamp : other.timestamp = block.timestamp) : rules.Fits chain now other where
  nonempty := htransactions ▸ h.nonempty
  difficulty := hdifficulty.trans h.difficulty
  notBefore := htimestamp ▸ h.notBefore
  notAfter := htimestamp ▸ h.notAfter
  distinct := htransactions ▸ h.distinct
  fresh := htransactions ▸ h.fresh

theorem latestTimestamp_mono (rules : Rules) {earlier later : UInt64} (h : earlier ≤ later) :
    rules.latestTimestamp earlier ≤ rules.latestTimestamp later := by
  rw [UInt64.le_iff_toNat_le] at h
  rw [latestTimestamp, latestTimestamp]
  omega

/-- A clock reading is plausible to itself. -/
theorem le_latestTimestamp (rules : Rules) (now : UInt64) :
    now.toNat ≤ rules.latestTimestamp now := by
  have hlt : now.toNat ≤ UInt64.size - 1 := Nat.le_of_lt_succ now.toNat_lt
  rw [latestTimestamp]
  omega

/-- A candidate with work and two admitted sets is acceptable. -/
theorem Fits.acceptable (h : rules.Fits chain now block) (hlink : block.previous = chain.tipDigest)
    (hwork : block.hasWork = true)
    (hpre : chain.Admits (rules.requiredQuorum chain) block.preVerifiers block.preSignatures)
    (hpost : chain.Admits (rules.requiredQuorum chain) block.verifiers block.signatures)
    (hattested : ∀ pair ∈ block.verifiers.zip block.signatures,
      pair.1.verifies block.payload pair.2 = true) : rules.Acceptable chain now block where
  onTip := hlink
  nonempty := h.nonempty
  difficulty := h.difficulty
  work := hwork
  notBefore := h.notBefore
  notAfter := h.notAfter
  distinct := h.distinct
  fresh := h.fresh
  preSet := hpre
  postSet := hpost
  attested := hattested

end Rules

/-- A fresh candidate is not older than the tip. -/
theorem NodeState.tip_le_freshCandidate (s : NodeState) (miner : MinerKey) (built : UInt64) :
    s.chain.tip.timestamp ≤ (s.freshCandidate miner built).timestamp := by
  show s.chain.tip.timestamp ≤
    if built ≤ s.chain.tip.timestamp then s.chain.tip.timestamp else built
  split
  · exact UInt64.le_refl _
  · rename_i hlate
    exact UInt64.le_of_lt (UInt64.not_le.mp hlate)

/-- A fresh candidate fits the chain, at its own reading of the clock and at later ones. -/
theorem NodeState.fits_freshCandidate {s : NodeState} {taken : List Transaction}
    (h : s.Tidy taken) (hwaiting : s.pool.pending ≠ []) {built now : UInt64} (hnow : built ≤ now)
    (htip : s.chain.tip.timestamp.toNat ≤ s.rules.latestTimestamp now) (miner : MinerKey) :
    s.rules.Fits s.chain now (s.freshCandidate miner built) where
  nonempty := hwaiting
  difficulty := rfl
  notBefore := s.tip_le_freshCandidate miner built
  notAfter := by
    show (if built ≤ s.chain.tip.timestamp then s.chain.tip.timestamp else built).toNat ≤ _
    split
    · exact htip
    · exact Nat.le_trans (s.rules.le_latestTimestamp built) (s.rules.latestTimestamp_mono hnow)
  distinct := h.orderly.distinct
  fresh := h.fresh

/-! ### Attempts whose candidate extends the tip -/

namespace Stage

/-- Whether the candidate's first set is the one that `preQuorum` speaks of. -/
def holdsSet : Stage → Bool
  | .searching _ | .resyncing | .settling _ | .calling .closing | .gathering .closing .. => true
  | _ => false

/-- Whether a nonce was found that the candidate keeps. -/
def closes : Stage → Bool
  | .settling _ | .calling .closing | .gathering .closing .. | .finished (.ok _) => true
  | _ => false

/-- Whether answers are waited for. -/
def gathers : Stage → Bool
  | .gathering .. => true
  | _ => false

end Stage

namespace Attempt

/-- What an attempt has achieved for a candidate that extends the tip. -/
structure OnTip (rules : Rules) (chain : Chain) (now : UInt64) (a : Attempt) : Prop where
  fits : rules.Fits chain now a.candidate
  preSet : a.stage.holdsSet = true → a.preQuorum = true →
    chain.Admits (rules.requiredQuorum chain) a.candidate.preVerifiers a.candidate.preSignatures
  worked : a.stage.closes = true → a.preQuorum = true ∧ a.candidate.hasWork = true
  /-- The round in progress is about this candidate and this chain. -/
  gathering : ∀ purpose payload eligible c, a.stage = .gathering purpose payload eligible c →
    payload = a.candidate.payload ∧ eligible = chain.miners ∧
      c.round.required = rules.requiredQuorum chain ∧ c.round.Genuine eligible.contains payload
  /-- So was the round just closed. -/
  settling : ∀ round, a.stage = .settling round → round.required = rules.requiredQuorum chain ∧
    round.Genuine chain.miners.contains a.candidate.payload

variable {rules : Rules} {chain : Chain} {now : UInt64} {a : Attempt}

/-- Stages before a nonce is found in which no round is held. -/
theorem onTip_of_stage (hfits : rules.Fits chain now a.candidate)
    (hset : a.stage.holdsSet = true → a.preQuorum = true →
      chain.Admits (rules.requiredQuorum chain) a.candidate.preVerifiers a.candidate.preSignatures)
    (hopen : a.stage.closes = false)
    (hquiet : a.stage.gathers = false) :
    OnTip rules chain now a where
  fits := hfits
  preSet := hset
  worked := by
    intro h
    rw [hopen] at h
    exact absurd h Bool.false_ne_true
  gathering := by
    intro purpose payload eligible c h
    rw [h] at hquiet
    exact absurd hquiet (by simp [Stage.gathers])
  settling := by
    intro round h
    rw [h] at hopen
    exact absurd hopen (by simp [Stage.closes])

/-- Closing a genuine round. -/
theorem onTip_closeRound (hindexed : chain.Indexed) (hfits : rules.Fits chain now a.candidate)
    {purpose : RoundPurpose} {round : AttestationRound}
    (hrequired : round.required = rules.requiredQuorum chain)
    (hgenuine : round.Genuine chain.miners.contains a.candidate.payload)
    (hclosing : purpose = .closing → a.preQuorum = true ∧ a.candidate.hasWork = true ∧
      chain.Admits (rules.requiredQuorum chain) a.candidate.preVerifiers
        a.candidate.preSignatures) :
    OnTip rules chain now (a.closeRound purpose round) := by
  have hadmits : round.hasQuorum = true →
      chain.Admits (rules.requiredQuorum chain) round.keys round.signatures := by
    intro hquorum
    rw [← hrequired]
    exact hgenuine.admits hindexed hquorum
  have hnext : rules.Fits chain now (withPreSet a.candidate round) := hfits.congr rfl rfl rfl
  cases purpose with
  | opening => exact onTip_of_stage hnext (fun _ h => hadmits h) rfl rfl
  | topUp => exact onTip_of_stage hnext (fun _ h => hadmits h) rfl rfl
  | resealing =>
      rw [closeRound]
      split
      · rename_i hquorum
        exact onTip_of_stage hnext (fun _ _ => hadmits hquorum) rfl rfl
      · exact onTip_of_stage hnext (fun h => absurd h Bool.false_ne_true) rfl rfl
  | closing =>
      obtain ⟨hquorum, hwork, hset⟩ := hclosing rfl
      refine ⟨hfits, fun _ _ => hset, fun _ => ⟨hquorum, hwork⟩, by simp [closeRound], ?_⟩
      intro other h
      obtain rfl := Stage.settling.inj h
      exact ⟨hrequired, hgenuine⟩

/-- Going on with a genuine round, or closing it. -/
theorem onTip_continueRound (hindexed : chain.Indexed) (hfits : rules.Fits chain now a.candidate)
    {purpose : RoundPurpose} {c : Collection}
    (hrequired : c.round.required = rules.requiredQuorum chain)
    (hgenuine : c.round.Genuine chain.miners.contains a.candidate.payload)
    (hclosing : purpose = .closing → a.preQuorum = true ∧ a.candidate.hasWork = true ∧
      chain.Admits (rules.requiredQuorum chain) a.candidate.preVerifiers
        a.candidate.preSignatures) :
    OnTip rules chain now (a.continueRound purpose a.candidate.payload chain.miners c) := by
  rw [continueRound]
  split
  · exact onTip_closeRound hindexed hfits hrequired hgenuine hclosing
  · refine ⟨hfits, fun h _ => ?_, fun h => ?_, ?_, by simp⟩
    · cases purpose with
      | closing => exact (hclosing rfl).2.2
      | _ => exact absurd h Bool.false_ne_true
    · cases purpose with
      | closing => exact ⟨(hclosing rfl).1, (hclosing rfl).2.1⟩
      | _ => exact absurd h Bool.false_ne_true
    · intro other payload eligible held h
      obtain ⟨-, rfl, rfl, rfl⟩ := Stage.gathering.inj h
      exact ⟨rfl, rfl, hrequired, hgenuine⟩

/-- What the stage of a closing round says, in the form the next round needs it. -/
theorem OnTip.closing (h : OnTip rules chain now a) (hcloses : a.stage.closes = true)
    (hholds : a.stage.holdsSet = true) :
    a.preQuorum = true ∧ a.candidate.hasWork = true ∧
      chain.Admits (rules.requiredQuorum chain) a.candidate.preVerifiers
        a.candidate.preSignatures :=
  ⟨(h.worked hcloses).1, (h.worked hcloses).2, h.preSet hholds (h.worked hcloses).1⟩

/-- One slice of the search. -/
theorem OnTip.sliced (h : OnTip rules chain now a) {tried : Nat}
    (hstage : a.stage = .searching tried) {elapsed : Duration} {a' : Attempt}
    (hslice : Sliced a elapsed a') : OnTip rules chain now a' := by
  have hset := h.preSet (by rw [hstage]; rfl)
  cases hslice with
  | goesOn nonce hashes stage next =>
      refine onTip_of_stage (h.fits.congr rfl rfl rfl) (fun _ => hset) ?_ ?_
      · rcases next with ⟨rfl, -⟩ | rfl | ⟨_, rfl⟩ <;> rfl
      · rcases next with ⟨rfl, -⟩ | rfl | ⟨_, rfl⟩ <;> rfl
  | found nonce hashes quorum work =>
      exact ⟨h.fits.congr rfl rfl rfl, fun _ _ => hset quorum,
        fun _ => ⟨quorum, Block.hasWork_withMiningTime work elapsed⟩, by simp, by simp⟩

/-! ### Steps of an attempt under way -/

/-- The candidate of an attempt under way was built on some block of the chain, and while that
block is the tip, the attempt is on its way to an acceptable block. -/
structure Ready (s : NodeState) (now : UInt64) (a : Attempt) : Prop where
  placed : a.result? = none → ∃ block ∈ s.chain.blocks, a.candidate.previous = block.digest
  onTip : a.result? = none → a.candidate.previous = s.chain.tipDigest →
    OnTip s.rules s.chain now a

variable {s t : NodeState}

/-- An attempt that is over is owed nothing. -/
theorem ready_of_ended {result : Except MiningError Block} (h : a.result? = some result) :
    Ready s now a where
  placed := fun hnone => absurd (h.symm.trans hnone) (by simp)
  onTip := fun hnone => absurd (h.symm.trans hnone) (by simp)

/-- The attempt works on, with the same candidate up to what is not linked. -/
theorem Ready.advance (h : Ready s now a) (hrunning : a.result? = none)
    (hledger : s.SameLedger t) {a' : Attempt}
    (hprevious : a'.candidate.previous = a.candidate.previous)
    (honTip : OnTip s.rules s.chain now a → OnTip s.rules s.chain now a') : Ready t now a' where
  placed := by
    intro _
    rw [hledger.chain, hprevious]
    exact h.placed hrunning
  onTip := by
    intro _ htip
    rw [hledger.chain] at htip ⊢
    rw [hledger.rules]
    exact honTip (h.onTip hrunning (hprevious.symm.trans htip))

/-- A fresh candidate is on its way. -/
theorem ready_of_fresh {taken : List Transaction} (hsound : s.Sound taken)
    (hwaiting : s.pool.pending ≠ []) {built : UInt64} (hnow : built ≤ now)
    (htime : s.chain.tip.timestamp.toNat ≤ s.rules.latestTimestamp now)
    (hledger : s.SameLedger t) {miner : MinerKey}
    (hcandidate : a.candidate = s.freshCandidate miner built)
    (hstage : a.stage = .calling .opening) : Ready t now a where
  placed := by
    intro _
    rw [hledger.chain, hcandidate]
    exact ⟨s.chain.tip, s.chain.tip_mem_blocks, hsound.indexed.tip⟩
  onTip := by
    intro _ _
    rw [hledger.chain, hledger.rules]
    refine onTip_of_stage ?_ ?_ ?_ ?_
    · rw [hcandidate]
      exact NodeState.fits_freshCandidate hsound.tidy hwaiting hnow htime miner
    · rw [hstage]
      exact fun h => absurd h Bool.false_ne_true
    · rw [hstage]
      rfl
    · rw [hstage]
      rfl

/-- An attempt that gives its candidate back. -/
theorem Ready.releasing (h : Ready s now a) (hrunning : a.result? = none)
    (hledger : s.SameLedger t) {a' : Attempt} {e : MiningError}
    (hcandidate : a'.candidate = a.candidate) (hstage : a'.stage = .releasing e) :
    Ready t now a' := by
  refine h.advance hrunning hledger (by rw [hcandidate]) fun honTip => onTip_of_stage ?_ ?_ ?_ ?_
  · rw [hcandidate]
    exact honTip.fits
  · rw [hstage]
    exact fun h => absurd h Bool.false_ne_true
  · rw [hstage]
    rfl
  · rw [hstage]
    rfl

theorem Ready.afterResync (h : Ready s now a) (hstage : a.stage = .resyncing)
    (hsound : s.Sound a.candidate.transactions) {built : UInt64} (hnow : built ≤ now)
    (htime : s.chain.tip.timestamp.toNat ≤ s.rules.latestTimestamp now) :
    Ready (Attempt.afterResync s a built).1 now (Attempt.afterResync s a built).2 := by
  have hrunning : a.result? = none := result?_eq_none hstage rfl
  have hledger := NodeState.sameLedger_resync s a.candidate built
  rcases afterResync_cases s a built with
    ⟨kept, -, hnext⟩ | ⟨block, hok, hnext⟩ | ⟨error, -, hnext⟩
  · rw [hnext]
    refine h.advance hrunning hledger rfl fun honTip => ?_
    cases hquorum : a.preQuorum with
    | true =>
        exact onTip_of_stage honTip.fits (fun _ _ => honTip.preSet (by rw [hstage]; rfl) hquorum)
          rfl rfl
    | false => exact onTip_of_stage honTip.fits (fun h => absurd h Bool.false_ne_true) rfl rfl
  · rw [hnext]
    obtain ⟨hwaiting, rfl, -⟩ := hsound.resync_anew hok
    exact ready_of_fresh hsound hwaiting hnow htime hledger rfl rfl
  · rw [hnext]
    exact h.releasing hrunning hledger rfl rfl

theorem Ready.settle (h : Ready s now a) {round : AttestationRound}
    (hstage : a.stage = .settling round) (hsound : s.Sound a.candidate.transactions)
    {built : UInt64} (hnow : built ≤ now)
    (htime : s.chain.tip.timestamp.toNat ≤ s.rules.latestTimestamp now) :
    Ready (Attempt.settle s a round built).1 now (Attempt.settle s a round built).2 := by
  have hrunning : a.result? = none := result?_eq_none hstage rfl
  have hledger := NodeState.sameLedger_resync s a.candidate built
  by_cases htip : s.chain.tipDigest = a.candidate.previous
  · rw [Attempt.settle, if_neg (not_not_intro htip)]
    split
    · exact h.releasing hrunning (.refl s) rfl rfl
    · dsimp only
      exact ready_of_ended (result?_conclude _ _)
  · rcases settle_cases htip round built with ⟨anew, block, hok, hnext⟩ | ⟨error, -, hnext⟩
    · rw [hnext]
      cases anew with
      | true =>
          obtain ⟨hwaiting, rfl, -⟩ := hsound.resync_anew hok
          exact ready_of_fresh hsound hwaiting hnow htime hledger rfl rfl
      | false =>
          have hcurrent := (hsound.resync_kept hok).1
          exact absurd (of_decide_eq_true hcurrent).1 htip
    · rw [hnext]
      exact h.releasing hrunning hledger rfl rfl

/-- **Every step of an attempt under way keeps it on its way to an acceptable block.** -/
theorem Ready.step (h : Ready s now a) (hrunning : a.result? = none)
    (hsound : s.Sound a.candidate.transactions) (setup : MinerSetup) {event : AttemptEvent}
    (hnow : ∀ reading, event = .proceed reading → reading ≤ now)
    (htime : s.chain.tip.timestamp.toNat ≤ s.rules.latestTimestamp now) :
    Ready (a.step setup s event).1 now (a.step setup s event).2 := by
  unfold Attempt.step
  split
  · -- a round begins: what it is about is read off the state and the candidate
    rename_i purpose hstage
    refine h.advance hrunning (.refl s) (worked_continueRound a _ _ _ _).previous fun honTip => ?_
    refine onTip_continueRound hsound.indexed honTip.fits rfl (Collection.genuine_start _ _ _) ?_
    rintro rfl
    exact honTip.closing (by rw [hstage]; rfl) (by rw [hstage]; rfl)
  · rename_i purpose payload eligible c slot answers hstage
    split
    · refine h.advance hrunning (.refl s) (worked_continueRound a _ _ _ _).previous fun honTip => ?_
      obtain ⟨rfl, rfl, hrequired, hgenuine⟩ := honTip.gathering purpose payload eligible c hstage
      refine onTip_continueRound hsound.indexed honTip.fits ?_
        (Collection.genuine_complete hgenuine slot answers) ?_
      · rw [Collection.required_complete]
        exact hrequired
      · rintro rfl
        exact honTip.closing (by rw [hstage]; rfl) (by rw [hstage]; rfl)
    · exact h
  · rename_i tried elapsed hstage
    have hslice := sliced_searchSlice setup s a tried elapsed
    exact h.advance hrunning (.refl s) hslice.worked.previous
      fun honTip => honTip.sliced hstage hslice
  · exact h.releasing hrunning (.refl s) rfl rfl
  · rename_i built hstage
    exact h.afterResync hstage hsound (hnow built rfl) htime
  · rename_i round built hstage
    exact h.settle hstage hsound (hnow built rfl) htime
  · rename_i e reading hstage
    exact ready_of_ended (a := a.conclude (.error e)) (result?_conclude a (.error e))
  · exact h

/-- **A block an attempt finishes is acceptable.** -/
theorem Ready.acceptable (h : Ready s now a) (hrunning : a.result? = none)
    (hindexed : s.chain.Indexed) {setup : MinerSetup} {event : AttemptEvent} {block : Block}
    (hdone : (a.step setup s event).2.result? = some (.ok block)) :
    s.rules.Acceptable s.chain now block := by
  obtain ⟨-, round, hstage, hquorum, htip, rfl⟩ :=
    (step_effect setup s a event).finished hrunning hdone
  have honTip := h.onTip hrunning htip
  obtain ⟨hrequired, hgenuine⟩ := honTip.settling round hstage
  obtain ⟨hpreQuorum, hwork, hset⟩ := honTip.closing (by rw [hstage]; rfl) (by rw [hstage]; rfl)
  have hfinished : (withPostSet a.candidate round).hasWork = true :=
    Block.hasWork_of_sealedBytes_eq hwork (Block.sealedBytes_withPostSet a.candidate round) rfl
  have hpost := hgenuine.admits hindexed hquorum
  rw [hrequired] at hpost
  refine Rules.Fits.acceptable (honTip.fits.congr rfl rfl rfl) htip hfinished hset hpost ?_
  rw [Block.payload_withPostSet]
  exact hgenuine.verified_zip

/-! ### The moment a nonce is found -/

/-- Two blocks of which proof of work sees the same, the first set included. -/
structure SameSeal (block other : Block) : Prop where
  bytes : other.sealedBytes = block.sealedBytes
  preVerifiers : other.preVerifiers = block.preVerifiers
  preSignatures : other.preSignatures = block.preSignatures

theorem SameSeal.refl (block : Block) : SameSeal block block := ⟨rfl, rfl, rfl⟩

theorem SameSeal.trans {first second third : Block} (h : SameSeal first second)
    (hnext : SameSeal second third) : SameSeal first third :=
  ⟨hnext.bytes.trans h.bytes, hnext.preVerifiers.trans h.preVerifiers,
    hnext.preSignatures.trans h.preSignatures⟩

theorem closes_continueRound {purpose : RoundPurpose} {payload : Bytes}
    {eligible : List MinerKey} {c : Collection}
    (h : (a.continueRound purpose payload eligible c).stage.closes = true) :
    purpose = .closing ∧ (a.continueRound purpose payload eligible c).candidate = a.candidate := by
  rw [continueRound] at h ⊢
  split at h
  · rename_i hfinished
    rw [if_pos hfinished]
    cases purpose with
    | opening => exact absurd h Bool.false_ne_true
    | topUp => exact absurd h Bool.false_ne_true
    | closing => exact ⟨rfl, rfl⟩
    | resealing =>
        rw [closeRound] at h
        split at h <;> exact absurd h Bool.false_ne_true
  · rename_i hunfinished
    rw [if_neg hunfinished]
    cases purpose with
    | closing => exact ⟨rfl, rfl⟩
    | _ => exact absurd h Bool.false_ne_true

/-- An attempt that ended with a block keeps its nonce. -/
theorem closes_of_finished {block : Block} (h : a.result? = some (.ok block)) :
    a.stage.closes = true := by
  rw [result?] at h
  split at h
  · rename_i hstage
    rw [hstage, Option.some.inj h]
    rfl
  · exact absurd h (by simp)

theorem closes_start (setup : MinerSetup) (s : NodeState) (built : UInt64) :
    (start setup s built).2.stage.closes = false := by
  rw [start]
  dsimp only
  obtain ⟨t, e | block⟩ := s.buildCandidate setup.miner built
  · rfl
  · rfl

/-- Resyncing during the search keeps no nonce. -/
theorem closes_afterResync (s : NodeState) (a : Attempt) (built : UInt64) :
    (Attempt.afterResync s a built).2.stage.closes = false := by
  rcases afterResync_cases s a built with
    ⟨kept, -, hnext⟩ | ⟨block, -, hnext⟩ | ⟨error, -, hnext⟩
  · rw [hnext]
    dsimp only
    split <;> rfl
  · rw [hnext]
    rfl
  · rw [hnext]
    rfl

/-- Settling either lets go of the nonce or finishes a block with it. -/
theorem closes_settle {s : NodeState} {round : AttestationRound} {built : UInt64}
    (h : (Attempt.settle s a round built).2.stage.closes = true) :
    SameSeal a.candidate (Attempt.settle s a round built).2.candidate := by
  by_cases htip : s.chain.tipDigest = a.candidate.previous
  · rw [Attempt.settle, if_neg (not_not_intro htip)] at h ⊢
    split at h
    · exact absurd h Bool.false_ne_true
    · rename_i hquorum
      rw [if_neg hquorum]
      exact ⟨Block.sealedBytes_withPostSet a.candidate round, rfl, rfl⟩
  · rcases settle_cases htip round built with ⟨anew, block, -, hnext⟩ | ⟨error, -, hnext⟩
    · rw [hnext] at h
      exact absurd h Bool.false_ne_true
    · rw [hnext] at h
      exact absurd h Bool.false_ne_true

/-- A slice of the search that ends with a nonce to keep found it, after the first set had reached
its quorum. -/
theorem closes_sliced {elapsed : Duration} {a' : Attempt} (hslice : Sliced a elapsed a')
    (h : a'.stage.closes = true) :
    a.preQuorum = true ∧ a'.candidate.hasWork = true ∧
      a'.candidate.preVerifiers = a.candidate.preVerifiers ∧
      a'.candidate.preSignatures = a.candidate.preSignatures := by
  cases hslice with
  | goesOn nonce hashes stage next =>
      rcases next with ⟨rfl, -⟩ | rfl | ⟨_, rfl⟩ <;> exact absurd h Bool.false_ne_true
  | found nonce hashes quorum work =>
      exact ⟨quorum, Block.hasWork_withMiningTime work elapsed, rfl, rfl⟩

/-- **A step after which the candidate's nonce is found** either found it, with a first set that
had reached its quorum, or leaves what proof of work sees as it was. -/
theorem step_closes (setup : MinerSetup) (s : NodeState) (a : Attempt) (event : AttemptEvent) :
    (a.step setup s event).2.stage.closes = true →
      (a.stage.closes = true ∧ SameSeal a.candidate (a.step setup s event).2.candidate) ∨
        ∃ tried elapsed, a.stage = .searching tried ∧ event = .search elapsed ∧
          a.preQuorum = true ∧ (a.step setup s event).2.candidate.hasWork = true ∧
          (a.step setup s event).2.candidate.preVerifiers = a.candidate.preVerifiers ∧
          (a.step setup s event).2.candidate.preSignatures = a.candidate.preSignatures := by
  unfold step
  split
  · rename_i purpose hstage
    intro h
    obtain ⟨rfl, hcandidate⟩ := closes_continueRound h
    refine Or.inl ⟨by rw [hstage]; rfl, ?_⟩
    rw [hcandidate]
    exact .refl _
  · rename_i purpose payload eligible c slot answers hstage
    split
    · intro h
      obtain ⟨rfl, hcandidate⟩ := closes_continueRound h
      refine Or.inl ⟨by rw [hstage]; rfl, ?_⟩
      rw [hcandidate]
      exact .refl _
    · exact fun h => Or.inl ⟨h, .refl _⟩
  · rename_i tried elapsed hstage
    dsimp only
    intro h
    obtain ⟨hquorum, hwork, hsets⟩ := closes_sliced (sliced_searchSlice setup s a tried elapsed) h
    exact Or.inr ⟨tried, elapsed, hstage, rfl, hquorum, hwork, hsets⟩
  · exact fun h => absurd h Bool.false_ne_true
  · rename_i built hstage
    intro h
    rw [closes_afterResync] at h
    exact absurd h Bool.false_ne_true
  · rename_i round built hstage
    exact fun h => Or.inl ⟨by rw [hstage]; rfl, closes_settle h⟩
  · exact fun h => absurd h Bool.false_ne_true
  · exact fun h => Or.inl ⟨h, .refl _⟩

/-! ### Attempts that need no luck -/

variable {s : NodeState}

/-- When no verifiers are required, a round is over before anybody is asked. -/
theorem step_call_of_no_quorum (setup : MinerSetup) (hquorum : s.requiredQuorum = 0)
    {purpose : RoundPurpose} (hstage : a.stage = .calling purpose) :
    a.step setup s .call = (s, a.closeRound purpose ⟨0, []⟩) := by
  unfold step
  rw [hstage]
  dsimp only
  rw [hquorum, continueRound, Collection.start_zero]
  rfl

/-- When there is nobody to ask, a round is over at once. -/
theorem step_call_of_no_peers (setup : MinerSetup) (hpeers : setup.peers = [])
    {purpose : RoundPurpose} (hstage : a.stage = .calling purpose) :
    a.step setup s .call = (s, a.closeRound purpose ⟨s.requiredQuorum, []⟩) := by
  unfold step
  rw [hstage]
  dsimp only
  rw [hpeers, continueRound, Collection.start_nil]
  rfl

/-- When there is one peer to ask and somebody is required, the peer is asked. -/
theorem step_call_of_one_peer (setup : MinerSetup) {peer : Address} (hpeers : setup.peers = [peer])
    (hfanout : 0 < setup.fanout) (hrequired : 0 < s.requiredQuorum) {purpose : RoundPurpose}
    (hstage : a.stage = .calling purpose) :
    a.step setup s .call = (s, { a with
      stage := .gathering purpose a.candidate.payload s.chain.miners
        ⟨⟨s.requiredQuorum, []⟩, setup.fanout, [], [peer]⟩ }) := by
  unfold step
  rw [hstage]
  dsimp only
  rw [hpeers, continueRound, Collection.start_singleton hrequired hfanout]
  rfl

/-- The peer's answer ends the round. -/
theorem step_answer_of_one_peer (setup : MinerSetup) {peer : Address} {purpose : RoundPurpose}
    {payload : Bytes} {eligible : List MinerKey} {required fanout : Nat}
    (hstage : a.stage =
      .gathering purpose payload eligible ⟨⟨required, []⟩, fanout, [], [peer]⟩)
    (answers : PeerAnswers) :
    a.step setup s (.answer 0 answers) = (s, a.closeRound purpose
      ⟨required, (answers.judge eligible.contains payload).toOption.toList⟩) := by
  unfold step
  rw [hstage]
  dsimp only
  rw [if_pos (by simp), continueRound, Collection.complete_singleton]
  rfl

/-- A round that was repeated and reaches its quorum leads back to the search. -/
theorem closeRound_resealing {round : AttestationRound} (hquorum : round.hasQuorum = true) :
    a.closeRound .resealing round = { a with
      candidate := withPreSet a.candidate round, preQuorum := true, stage := .searching 0 } := by
  rw [closeRound]
  dsimp only
  rw [if_pos hquorum]

/-- A round that falls short again ends the attempt. -/
theorem stage_closeRound_resealing {round : AttestationRound} (hshort : round.hasQuorum = false) :
    (a.closeRound .resealing round).stage =
      .releasing (.quorumFailed .preMining round.obtained round.required) := by
  rw [closeRound]
  dsimp only
  rw [if_neg (by rw [hshort]; exact Bool.false_ne_true)]

/-- When every digest does the work, the first nonce is found. -/
theorem searchSlice_of_easy (setup : MinerSetup) (s : NodeState) (a : Attempt)
    (heasy : ∀ digest, (Target.ofDifficulty a.candidate.difficulty).admits digest = true)
    (hsize : 0 < min setup.checkInterval setup.noncesPerRound) (elapsed : Duration) :
    ∃ hashes, searchSlice setup s a 0 elapsed =
      if a.preQuorum then
        { a with
          candidate := { a.candidate with miningTime := elapsed }
          hashes
          phase := .verifying
          stage := .calling .closing }
      else { a with hashes, stage := .calling .resealing } := by
  obtain ⟨size, hsize⟩ := Nat.exists_eq_succ_of_ne_zero (Nat.ne_of_gt hsize)
  refine ⟨a.hashes + 1, ?_⟩
  rw [searchSlice, Nat.sub_zero, hsize]
  dsimp only
  rw [Search.round, Search.roundFrom]
  dsimp only
  rw [if_pos (heasy _)]

/-- If the first set has its quorum, the nonce is kept. -/
theorem step_search_of_easy (setup : MinerSetup) (hstage : a.stage = .searching 0)
    (hquorum : a.preQuorum = true)
    (heasy : ∀ digest, (Target.ofDifficulty a.candidate.difficulty).admits digest = true)
    (hsize : 0 < min setup.checkInterval setup.noncesPerRound) (elapsed : Duration) :
    ∃ hashes, a.step setup s (.search elapsed) = (s, { a with
      candidate := { a.candidate with miningTime := elapsed }
      hashes
      phase := .verifying
      stage := .calling .closing }) := by
  obtain ⟨hashes, hslice⟩ := searchSlice_of_easy setup s a heasy hsize elapsed
  refine ⟨hashes, ?_⟩
  unfold step
  rw [hstage]
  dsimp only
  rw [hslice, if_pos hquorum]

/-- Otherwise it is spent on another round. -/
theorem step_search_of_short (setup : MinerSetup) (hstage : a.stage = .searching 0)
    (hshort : a.preQuorum = false)
    (heasy : ∀ digest, (Target.ofDifficulty a.candidate.difficulty).admits digest = true)
    (hsize : 0 < min setup.checkInterval setup.noncesPerRound) (elapsed : Duration) :
    ∃ hashes, a.step setup s (.search elapsed) =
      (s, { a with hashes, stage := .calling .resealing }) := by
  obtain ⟨hashes, hslice⟩ := searchSlice_of_easy setup s a heasy hsize elapsed
  refine ⟨hashes, ?_⟩
  unfold step
  rw [hstage]
  dsimp only
  rw [hslice, if_neg (by rw [hshort]; exact Bool.false_ne_true)]

/-- **An attempt that needs no verifiers and no luck finishes a block** in four steps. -/
theorem finishes_alone (setup : MinerSetup) (hstage : a.stage = .calling .opening)
    (hquorum : s.requiredQuorum = 0) (htip : s.chain.tipDigest = a.candidate.previous)
    (heasy : ∀ digest, (Target.ofDifficulty a.candidate.difficulty).admits digest = true)
    (hsize : 0 < min setup.checkInterval setup.noncesPerRound) (elapsed : Duration)
    (settled : UInt64) :
    ∃ searching closing settling block, a.step setup s .call = (s, searching) ∧
      searching.step setup s (.search elapsed) = (s, closing) ∧
      closing.step setup s .call = (s, settling) ∧ settling.result? = none ∧
      (settling.step setup s (.proceed settled)).2.result? = some (.ok block) := by
  obtain ⟨searching, hopening⟩ : ∃ searching, searching = a.closeRound .opening ⟨0, []⟩ := ⟨_, rfl⟩
  have hready : searching.preQuorum = true := by
    rw [hopening]
    rfl
  have hfields : searching.stage = .searching 0 ∧
      searching.candidate.difficulty = a.candidate.difficulty ∧
      searching.candidate.previous = a.candidate.previous := by
    rw [hopening]
    exact ⟨rfl, rfl, rfl⟩
  obtain ⟨hsearching, hdifficulty, hprevious⟩ := hfields
  rw [← hdifficulty] at heasy
  rw [← hprevious] at htip
  obtain ⟨hashes, hsearch⟩ :=
    step_search_of_easy (s := s) setup hsearching hready heasy hsize elapsed
  refine ⟨searching, _, _, withPostSet { searching.candidate with miningTime := elapsed } ⟨0, []⟩,
    ?_, hsearch, step_call_of_no_quorum setup hquorum rfl, rfl, ?_⟩
  · rw [hopening]
    exact step_call_of_no_quorum setup hquorum hstage
  · unfold step
    dsimp only [closeRound]
    rw [settle, if_neg (not_not_intro htip), if_neg (by decide)]
    rfl

end Attempt

end AttestedLedger
