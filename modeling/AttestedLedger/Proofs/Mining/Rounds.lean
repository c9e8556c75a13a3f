/-
The rounds of attestations of an attempt, one after another.

When an attempt calls its peers it hands them the candidate as it is at that moment, and asks for
as many verifiers as the chain then requires: that is a round held.  `Next` says which round may
come after which, and what the block handed out has to do with the round before.

A candidate that was just drawn up is bare.  A round that falls short of its quorum leaves what it
obtained in the candidate all the same, so the round that repeats it is about a block that lists
those verifiers already.  A round that reaches its quorum leads to the closing round, once a nonce
is found.

`Recounts` is what an attempt knows of the last round at each of its stages.  Every step keeps it
and holds, if it holds a round, one that may come next; `InTurn` follows for the rounds of a whole
run.
-/
import AttestedLedger.Proofs.Attestation.Round
import AttestedLedger.Proofs.Mining.Step

namespace AttestedLedger

/-! ### Bare candidates -/

namespace Block

/-- No verifier set is filled. -/
structure Bare (block : Block) : Prop where
  preVerifiers : block.preVerifiers = []
  preSignatures : block.preSignatures = []
  verifiers : block.verifiers = []
  signatures : block.signatures = []

theorem bare_candidate (miner : MinerKey) (transactions : List Transaction)
    (difficulty timestamp : UInt64) (previous : Digest) :
    (candidate miner transactions difficulty timestamp previous).Bare :=
  ⟨rfl, rfl, rfl, rfl⟩

end Block

namespace NodeState

theorem bare_of_buildCandidate {s : NodeState} {miner : MinerKey} {now : UInt64} {block : Block}
    (h : (s.buildCandidate miner now).2 = .ok block) : block.Bare := by
  rw [eq_freshCandidate_of_buildCandidate (Prod.ext rfl h)]
  exact Block.bare_candidate _ _ _ _ _

theorem bare_of_resync {s : NodeState} {block next : Block} {now : UInt64}
    (h : (s.resync block now).2 = .ok (true, next)) : next.Bare := by
  rw [resync] at h
  split at h
  · exact absurd h (by simp)
  dsimp only at h
  split at h
  · exact absurd h (by simp)
  · generalize hbuilt : NodeState.buildCandidate _ block.miner now = built at h
    obtain ⟨t, outcome⟩ := built
    cases outcome with
    | error e => exact absurd h (by simp [Except.map])
    | ok fresh =>
        obtain ⟨-, rfl⟩ := Prod.mk.inj (Except.ok.inj h)
        exact bare_of_buildCandidate (congrArg Prod.snd hbuilt)

end NodeState

/-! ### Rounds held -/

/-- A round of attestations at the moment it is held. -/
structure HeldRound where
  purpose : RoundPurpose
  /-- What the verifiers are handed. -/
  block : Block
  /-- How many of them are required. -/
  required : Nat

/-- What came of a held round: verifiers whose signatures verify over what they were handed. -/
structure HeldRound.Yields (held : HeldRound) (round : AttestationRound) : Prop where
  required : round.required = held.required
  genuine : ∃ miners : List MinerKey, round.Genuine miners.contains held.block.payload

namespace Attempt

/-- The round that an action begins. -/
def holds? (s : NodeState) (a : Attempt) (event : AttemptEvent) : Option HeldRound :=
  match a.stage, event with
  | .calling purpose, .call => some ⟨purpose, a.candidate, s.requiredQuorum⟩
  | _, _ => none

/-- The candidate's first set is what came of the last round, which was for that set. -/
def Filled (last : Option HeldRound) (block : Block) (quorum : Bool) : Prop :=
  ∃ held round nonce, last = some held ∧ held.purpose ≠ .closing ∧ held.Yields round ∧
    block = { withPreSet held.block round with nonce } ∧ quorum = round.hasQuorum

/-- Which round may be held after the last one, if there was one. -/
inductive Next : Option HeldRound → HeldRound → Prop where
  | opening {last : Option HeldRound} {held : HeldRound} (purpose : held.purpose = .opening)
      (bare : held.block.Bare) : Next last held
  /-- A round that fell short is repeated, about what it left. -/
  | again {last : Option HeldRound} {held : HeldRound}
      (purpose : held.purpose = .resealing ∨ held.purpose = .topUp)
      (filled : Filled last held.block false) : Next last held
  /-- The time of the search is filled in beside the nonce. -/
  | closing {last : Option HeldRound} {held : HeldRound} (time : Duration) (block : Block)
      (purpose : held.purpose = .closing)
      (finished : held.block = { block with miningTime := time })
      (filled : Filled last block true) : Next last held

/-- Each round may be held after the one before it. -/
def InTurn : Option HeldRound → List HeldRound → Prop
  | _, [] => True
  | last, held :: rest => Next last held ∧ InTurn (some held) rest

/-- What an attempt knows of the last round. -/
def Recounts (a : Attempt) (last : Option HeldRound) : Prop :=
  match a.stage with
  | .calling purpose => ∀ required, Next last ⟨purpose, a.candidate, required⟩
  | .gathering purpose payload eligible c =>
    ∃ required, last = some ⟨purpose, a.candidate, required⟩ ∧ payload = a.candidate.payload ∧
      c.round.required = required ∧ c.round.Genuine eligible.contains payload
  | .searching _ | .resyncing => Filled last a.candidate a.preQuorum
  | .settling round =>
    ∃ required, last = some ⟨.closing, a.candidate, required⟩ ∧
      HeldRound.Yields ⟨.closing, a.candidate, required⟩ round
  | .releasing _ | .finished (.error _) => True
  | .finished (.ok block) =>
    ∃ held round, last = some held ∧ held.purpose = .closing ∧ held.Yields round ∧
      round.hasQuorum = true ∧ block = withPostSet held.block round

variable {a : Attempt} {last : Option HeldRound} {s : NodeState}

theorem Filled.withNonce {block : Block} {quorum : Bool} (h : Filled last block quorum)
    (nonce : UInt64) : Filled last { block with nonce } quorum := by
  obtain ⟨held, round, old, hlast, hpurpose, hyields, rfl, hquorum⟩ := h
  exact ⟨held, round, nonce, hlast, hpurpose, hyields, rfl, hquorum⟩

/-! ### Pieces of a step -/

/-- A closed round leaves what came of it in the candidate, the closing round aside. -/
theorem recounts_closeRound {purpose : RoundPurpose} {required : Nat} {round : AttestationRound}
    (hyields : HeldRound.Yields ⟨purpose, a.candidate, required⟩ round) :
    (a.closeRound purpose round).Recounts (some ⟨purpose, a.candidate, required⟩) := by
  cases purpose with
  | opening =>
      exact ⟨_, round, a.candidate.nonce, rfl, by simp, hyields, rfl, rfl⟩
  | topUp =>
      exact ⟨_, round, a.candidate.nonce, rfl, by simp, hyields, rfl, rfl⟩
  | closing => exact ⟨required, rfl, hyields⟩
  | resealing =>
      rw [closeRound]
      dsimp only
      split
      · rename_i hquorum
        exact ⟨_, round, a.candidate.nonce, rfl, by simp, hyields, rfl, hquorum.symm⟩
      · trivial

theorem recounts_continueRound {purpose : RoundPurpose} {eligible : List MinerKey} {c : Collection}
    (hgenuine : c.round.Genuine eligible.contains a.candidate.payload) :
    (a.continueRound purpose a.candidate.payload eligible c).Recounts
      (some ⟨purpose, a.candidate, c.round.required⟩) := by
  rw [continueRound]
  split
  · exact recounts_closeRound ⟨rfl, eligible, hgenuine⟩
  · exact ⟨_, rfl, rfl, rfl, hgenuine⟩

theorem recounts_sliced {elapsed : Duration} {a' : Attempt}
    (h : Filled last a.candidate a.preQuorum) (hslice : Sliced a elapsed a') :
    a'.Recounts last := by
  cases hslice with
  | goesOn nonce hashes stage next =>
      rcases next with ⟨rfl, hshort⟩ | rfl | ⟨tried, rfl⟩
      · exact fun required => .again (Or.inl rfl) (hshort ▸ h.withNonce nonce)
      · exact h.withNonce nonce
      · exact h.withNonce nonce
  | found nonce hashes quorum work =>
      exact fun required => .closing elapsed { a.candidate with nonce } rfl rfl
        (quorum ▸ h.withNonce nonce)

theorem recounts_rebuilt {block : Block} (hbare : block.Bare) :
    (a.rebuilt s block).Recounts last :=
  fun _ => .opening rfl hbare

theorem recounts_afterResync (h : Filled last a.candidate a.preQuorum) (now : UInt64) :
    (afterResync s a now).2.Recounts last := by
  rcases afterResync_cases s a now with
    ⟨kept, -, hnext⟩ | ⟨block, hok, hnext⟩ | ⟨error, -, hnext⟩
  · rw [hnext, Recounts]
    dsimp only
    by_cases hquorum : a.preQuorum = true
    · rw [if_pos hquorum]
      exact h
    · rw [if_neg hquorum]
      rw [Bool.not_eq_true] at hquorum
      exact fun required => .again (Or.inr rfl) (hquorum ▸ h)
  · rw [hnext]
    exact recounts_rebuilt (NodeState.bare_of_resync hok)
  · rw [hnext]
    trivial

theorem recounts_settle {round : AttestationRound} {required : Nat}
    (hlast : last = some ⟨.closing, a.candidate, required⟩)
    (hyields : HeldRound.Yields ⟨.closing, a.candidate, required⟩ round) (now : UInt64) :
    (settle s a round now).2.Recounts last := by
  by_cases htip : s.chain.tipDigest = a.candidate.previous
  · rw [settle, if_neg (not_not_intro htip)]
    split
    · trivial
    · rename_i hquorum
      rw [Bool.not_eq_true', Bool.not_eq_false] at hquorum
      exact ⟨_, round, hlast, rfl, hyields, hquorum, rfl⟩
  · rcases settle_cases htip round now with ⟨anew, block, hok, hnext⟩ | ⟨error, -, hnext⟩
    · rw [hnext]
      cases anew with
      | true => exact recounts_rebuilt (NodeState.bare_of_resync hok)
      | false =>
          -- a candidate that is kept extends the tip
          have hprevious := NodeState.previous_of_resync hok
          rw [NodeState.resync_unbuilt hok] at hprevious
          exact absurd hprevious.symm htip
    · rw [hnext]
      trivial

/-! ### All steps -/

theorem holds?_eq_some_iff {event : AttemptEvent} {held : HeldRound} :
    a.holds? s event = some held ↔
      ∃ purpose, a.stage = .calling purpose ∧ event = .call ∧
        held = ⟨purpose, a.candidate, s.requiredQuorum⟩ := by
  unfold holds?
  constructor
  · intro h
    split at h
    · rename_i purpose hstage
      exact ⟨purpose, hstage, rfl, (Option.some.inj h).symm⟩
    · exact absurd h (by simp)
  · rintro ⟨purpose, hstage, rfl, rfl⟩
    rw [hstage]

theorem holds?_eq_none {event : AttemptEvent} (h : event ≠ .call) : a.holds? s event = none := by
  cases hheld : a.holds? s event with
  | none => rfl
  | some held =>
      obtain ⟨purpose, -, hcall, -⟩ := holds?_eq_some_iff.mp hheld
      exact absurd hcall h

/-- A round that is held is one that may come next. -/
theorem Recounts.next (h : a.Recounts last) {event : AttemptEvent} {held : HeldRound}
    (hheld : a.holds? s event = some held) : Next last held := by
  obtain ⟨purpose, hstage, -, rfl⟩ := holds?_eq_some_iff.mp hheld
  rw [Recounts, hstage] at h
  exact h _

/-- **A step that holds a round recounts it.** -/
theorem recounts_held (setup : MinerSetup) {event : AttemptEvent} {held : HeldRound}
    (hheld : a.holds? s event = some held) : (a.step setup s event).2.Recounts (some held) := by
  obtain ⟨purpose, hstage, rfl, rfl⟩ := holds?_eq_some_iff.mp hheld
  have hstep : a.step setup s .call = (s, a.continueRound purpose a.candidate.payload
      s.chain.miners (.start s.requiredQuorum setup.fanout setup.peers)) := by
    simp only [step, hstage]
  rw [hstep]
  exact recounts_continueRound (Collection.genuine_start _ _ _)

/-- **Any other step recounts the round before**, as long as the attempt does. -/
theorem Recounts.step (h : a.Recounts last) (setup : MinerSetup) {event : AttemptEvent}
    (hnone : a.holds? s event = none) : (a.step setup s event).2.Recounts last := by
  unfold Attempt.step
  split
  · rename_i purpose hstage
    simp [holds?, hstage] at hnone
  · rename_i purpose payload eligible c slot answers hstage
    split
    · rw [Recounts, hstage] at h
      obtain ⟨required, rfl, rfl, rfl, hgenuine⟩ := h
      rw [← Collection.required_complete c slot (answers.judge eligible.contains _)]
      exact recounts_continueRound (Collection.genuine_complete hgenuine slot answers)
    · exact h
  · rename_i tried elapsed hstage
    rw [Recounts, hstage] at h
    exact recounts_sliced h (sliced_searchSlice setup s a tried elapsed)
  · trivial
  · rename_i now hstage
    rw [Recounts, hstage] at h
    exact recounts_afterResync h now
  · rename_i round now hstage
    rw [Recounts, hstage] at h
    obtain ⟨required, hlast, hyields⟩ := h
    exact recounts_settle hlast hyields now
  · trivial
  · exact h

theorem recounts_start (setup : MinerSetup) (s : NodeState) (now : UInt64) :
    (start setup s now).2.Recounts none := by
  rw [start]
  dsimp only
  generalize hbuilt : s.buildCandidate setup.miner now = built
  obtain ⟨t, e | block⟩ := built
  · trivial
  · exact fun _ => .opening rfl (NodeState.bare_of_buildCandidate (congrArg Prod.snd hbuilt))

/-! ### All rounds of an attempt -/

/-- The last of some rounds is the last of all, if there were any. -/
theorem getLast?_cons_or (held : HeldRound) (rounds : List HeldRound) (last : Option HeldRound) :
    (held :: rounds).getLast?.or last = rounds.getLast?.or (some held) := by
  cases rounds with
  | nil => rfl
  | cons next rest =>
      rw [List.getLast?_cons_cons, List.getLast?_eq_some_getLast (List.cons_ne_nil next rest)]
      rfl

/-- Each round may be held after the one before it. -/
theorem InTurn.next : ∀ {front back : List HeldRound} {held : HeldRound} {last : Option HeldRound},
    InTurn last (front ++ held :: back) → Next (front.getLast?.or last) held := by
  intro front
  induction front with
  | nil => intro back held last h; exact h.1
  | cons first rest ih =>
      intro back held last h
      rw [getLast?_cons_or]
      exact ih h.2

/-- Until the closing round is held, nothing is listed of the second set. -/
def Unfinished (held : HeldRound) : Prop :=
  held.purpose ≠ .closing → held.block.verifiers = [] ∧ held.block.signatures = []

theorem Next.unfinished {held : HeldRound} (h : Next last held)
    (hlast : ∀ before, last = some before → Unfinished before) : Unfinished held := by
  intro hpurpose
  cases h with
  | opening _ bare => exact ⟨bare.verifiers, bare.signatures⟩
  | again _ filled =>
      obtain ⟨before, round, nonce, hbefore, hfirst, -, hblock, -⟩ := filled
      rw [hblock]
      exact hlast before hbefore hfirst
  | closing _ _ purpose => exact absurd purpose hpurpose

theorem InTurn.unfinished : ∀ {rounds : List HeldRound} {last : Option HeldRound},
    InTurn last rounds → (∀ before, last = some before → Unfinished before) →
      ∀ held ∈ rounds, Unfinished held := by
  intro rounds
  induction rounds with
  | nil => intro last _ _ held hin; exact absurd hin List.not_mem_nil
  | cons first rest ih =>
      intro last h hlast held hin
      have hfirst := h.1.unfinished hlast
      rcases List.mem_cons.mp hin with rfl | hrest
      · exact hfirst
      · refine ih h.2 ?_ held hrest
        rintro before ⟨⟩
        exact hfirst

/-- A block that lists what came of a round is bare exactly when that was nothing. -/
theorem bare_withPreSet_iff {block : Block} (hverifiers : block.verifiers = [])
    (hsignatures : block.signatures = []) (round : AttestationRound) (nonce : UInt64) :
    ({ withPreSet block round with nonce } : Block).Bare ↔ round.attestations = [] := by
  constructor
  · intro hbare
    exact List.map_eq_nil_iff.mp hbare.preVerifiers
  · intro hnone
    refine ⟨?_, ?_, hverifiers, hsignatures⟩
    · exact List.map_eq_nil_iff.mpr hnone
    · exact List.map_eq_nil_iff.mpr hnone

/-- How a block came by its sets: the last round before the closing one gave the first, and the
closing round, about the block with nonce and time, gave the second. -/
structure Seals (held closing : HeldRound) (pre post : AttestationRound) (block : Block) :
    Prop where
  first : held.purpose ≠ .closing
  preYields : held.Yields pre
  preQuorum : pre.hasQuorum = true
  last : closing.purpose = .closing
  handed : closing.block =
    { withPreSet held.block pre with nonce := block.nonce, miningTime := block.miningTime }
  postYields : closing.Yields post
  postQuorum : post.hasQuorum = true
  finished : block = withPostSet closing.block post

/-- What the rounds of an attempt with this result were about. -/
structure Attests (rounds : List HeldRound) (result : Except MiningError Block) : Prop where
  /-- A first round is about a block in which no set is filled. -/
  opening : ∀ held ∈ rounds, held.purpose = .opening → held.block.Bare
  unfinished : ∀ held ∈ rounds, Unfinished held
  /-- A round that is repeated fell short, and is repeated about a block that lists all it obtained,
  in which therefore no set is filled only if that was nothing. -/
  again : ∀ front held back, rounds = front ++ held :: back →
    held.purpose = .resealing ∨ held.purpose = .topUp →
      ∃ before round, front.getLast? = some before ∧ before.purpose ≠ .closing ∧
        before.Yields round ∧ round.hasQuorum = false ∧
        held.block = { withPreSet before.block round with nonce := held.block.nonce } ∧
        (held.block.Bare ↔ round.attestations = [])
  /-- The first set of the block that is returned attests what the last round before the closing
  one was about. -/
  sealed : ∀ block, result = .ok block → ∃ front held closing pre post,
    rounds = front ++ [held, closing] ∧ Seals held closing pre post block ∧
      ∀ pair ∈ block.preVerifiers.zip block.preSignatures,
        pair.1.verifies held.block.payload pair.2 = true

theorem Recounts.sealed (h : a.Recounts last) {block : Block}
    (hdone : a.result? = some (.ok block)) :
    ∃ held round, last = some held ∧ held.purpose = .closing ∧ held.Yields round ∧
      round.hasQuorum = true ∧ block = withPostSet held.block round := by
  rw [result?] at hdone
  split at hdone
  · rename_i result hstage
    obtain rfl := Option.some.inj hdone
    rwa [Recounts, hstage] at h
  · exact absurd hdone (by simp)

/-- **The closing round comes after the round that gave the first set**, and is about that block. -/
theorem InTurn.sealed {rounds : List HeldRound} (h : InTurn none rounds) {closing : HeldRound}
    {post : AttestationRound} {block : Block} (hlast : rounds.getLast? = some closing)
    (hpurpose : closing.purpose = .closing) (hyields : closing.Yields post)
    (hquorum : post.hasQuorum = true) (hblock : block = withPostSet closing.block post) :
    ∃ front held pre, rounds = front ++ [held, closing] ∧ Seals held closing pre post block := by
  obtain ⟨before, rfl⟩ := List.getLast?_eq_some_iff.mp hlast
  have hnext := h.next
  rw [Option.or_none] at hnext
  cases hnext with
  | opening purpose => exact absurd (hpurpose.symm.trans purpose) (by simp)
  | again purpose =>
      rw [hpurpose] at purpose
      exact absurd purpose (by simp)
  | closing time candidate _ finished filled =>
      obtain ⟨held, pre, nonce, hheld, hfirst, hpre, rfl, hreached⟩ := filled
      obtain ⟨front, rfl⟩ := List.getLast?_eq_some_iff.mp hheld
      refine ⟨front, held, pre, by simp, hfirst, hpre, hreached.symm, hpurpose, ?_, hyields,
        hquorum, hblock⟩
      rw [hblock, finished]
      rfl

/-- **Rounds that are held in turn attest what they should**, each the block it was handed. -/
theorem InTurn.attests {rounds : List HeldRound} {result : Except MiningError Block}
    (h : InTurn none rounds) (hresult : a.result? = some result)
    (hrecounts : a.Recounts rounds.getLast?) : Attests rounds result := by
  have hunfinished := h.unfinished (fun before hnone => absurd hnone (by simp))
  refine ⟨?_, hunfinished, ?_, ?_⟩
  · intro held hin hpurpose
    obtain ⟨front, back, rfl⟩ := List.append_of_mem hin
    cases h.next with
    | opening _ bare => exact bare
    | again purpose =>
        rw [hpurpose] at purpose
        exact absurd purpose (by simp)
    | closing _ _ purpose => exact absurd (hpurpose.symm.trans purpose) (by simp)
  · rintro front held back rfl hpurpose
    have hnext := h.next
    rw [Option.or_none] at hnext
    cases hnext with
    | opening purpose =>
        rw [purpose] at hpurpose
        exact absurd hpurpose (by simp)
    | again _ filled =>
        obtain ⟨before, round, nonce, hbefore, hfirst, hyields, hblock, hshort⟩ := filled
        have hin : before ∈ front ++ held :: back :=
          List.mem_append_left _ (List.mem_of_getLast? hbefore)
        obtain ⟨hverifiers, hsignatures⟩ := hunfinished before hin hfirst
        refine ⟨before, round, hbefore, hfirst, hyields, hshort.symm, ?_, ?_⟩
        · rw [hblock]
        · rw [hblock]
          exact bare_withPreSet_iff hverifiers hsignatures round nonce
    | closing _ _ purpose =>
        rw [purpose] at hpurpose
        exact absurd hpurpose (by simp)
  · rintro block rfl
    obtain ⟨closing, post, hlast, hpurpose, hyields, hquorum, hblock⟩ := hrecounts.sealed hresult
    obtain ⟨front, held, pre, hrounds, hseals⟩ :=
      h.sealed hlast hpurpose hyields hquorum hblock
    refine ⟨front, held, closing, pre, post, hrounds, hseals, ?_⟩
    obtain ⟨miners, hgenuine⟩ := hseals.preYields.genuine
    rw [hseals.finished, hseals.handed]
    exact hgenuine.verified_zip

/-! ### How much the first set lists -/

/-- The block that is returned lists as many as the round for its first set asked for. -/
theorem Seals.required_le {held closing : HeldRound} {pre post : AttestationRound} {block : Block}
    (h : Seals held closing pre post block) : held.required ≤ block.preVerifiers.length := by
  have hreached : pre.required ≤ pre.obtained := of_decide_eq_true h.preQuorum
  have hlisted : block.preVerifiers = pre.keys := by
    rw [h.finished, h.handed]
    rfl
  rw [hlisted, AttestationRound.keys, List.length_map, ← h.preYields.required]
  exact hreached

/-- The closing round was about a block with the same parent as the round before. -/
theorem Seals.previous_eq {held closing : HeldRound} {pre post : AttestationRound} {block : Block}
    (h : Seals held closing pre post block) : held.block.previous = block.previous := by
  rw [h.finished, h.handed]
  rfl

/-- **A round for the first set is about a block that lists none of it, or fewer than an earlier
round about it asked for.** -/
theorem Attests.short {rounds : List HeldRound} {result : Except MiningError Block}
    (h : Attests rounds result) {held : HeldRound} (hin : held ∈ rounds)
    (hfirst : held.purpose ≠ .closing) :
    held.block.preVerifiers = [] ∨ ∃ before ∈ rounds,
      before.block.previous = held.block.previous ∧
        held.block.preVerifiers.length < before.required := by
  have hrepeated : held.purpose = .resealing ∨ held.purpose = .topUp → ∃ before ∈ rounds,
      before.block.previous = held.block.previous ∧
        held.block.preVerifiers.length < before.required := by
    intro hpurpose
    obtain ⟨front, back, rfl⟩ := List.append_of_mem hin
    obtain ⟨before, round, hbefore, -, hyields, hshort, hblock, -⟩ :=
      h.again front held back rfl hpurpose
    refine ⟨before, List.mem_append_left _ (List.mem_of_getLast? hbefore), ?_, ?_⟩
    · rw [hblock]
      rfl
    · have hunreached : round.obtained < round.required := by
        rw [← Nat.not_le]
        exact of_decide_eq_false hshort
      have hlisted : held.block.preVerifiers = round.keys := by
        rw [hblock]
        rfl
      rw [hlisted, AttestationRound.keys, List.length_map, ← hyields.required]
      exact hunreached
  cases hpurpose : held.purpose with
  | opening => exact Or.inl (h.opening held hin hpurpose).preVerifiers
  | resealing => exact Or.inr (hrepeated (Or.inl hpurpose))
  | topUp => exact Or.inr (hrepeated (Or.inr hpurpose))
  | closing => exact absurd hpurpose hfirst

end Attempt

end AttestedLedger
