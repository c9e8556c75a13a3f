/-
What the verifiers of a call are handed.

`rounds` reads off a run the rounds of attestations in the order in which they are held.  That each
of them may be held after the one before is a matter of the attempt alone: whatever else happens to
the node leaves its attempt as it is, and every step of the attempt keeps `Attempt.Recounts`.  So
the rounds of a call attest what `Attempt.Attests` says, whether it returns a block or an error.

A round that fell short is repeated about the candidate as the short round left it.  Two nodes with
a single peer show what that may be: `paired`, whose first round obtains nothing, and `shortHanded`,
whose first round obtains one attestation of two.
-/
import AttestedLedger.Proofs.Mining.Rounds
import AttestedLedger.Proofs.Node.Calls
import AttestedLedger.Proofs.Node.Watching

namespace AttestedLedger

namespace Node

/-- The round that an event begins. -/
def holds? (node : Node) : NodeEvent → Option HeldRound
  | .mine event =>
    match node.attempt with
    | none => none
    | some a => a.holds? node.state event
  | _ => none

/-- The rounds that are held in the course of events, in order. -/
def rounds (node : Node) : List NodeEvent → List HeldRound
  | [] => []
  | event :: rest => (node.holds? event).toList ++ (node.step event).rounds rest

variable {node : Node} {now : UInt64} {during : List NodeEvent}
  {result : Except MiningError Block}

/-- An event leaves the attempt under way alone, or is its next step. -/
theorem attempt_step_of_running {a : Attempt} (hattempt : node.attempt = some a)
    (hrunning : a.result? = none) (event : NodeEvent) :
    (∃ action, event = .mine action ∧
        (node.step event).attempt = some (a.step node.setup node.state action).2) ∨
      (node.step event).attempt = some a ∧ node.holds? event = none := by
  cases event with
  | mine action => exact Or.inl ⟨action, rfl, congrArg Node.attempt (step_mine hattempt rfl)⟩
  | submit tx => exact Or.inr ⟨hattempt, rfl⟩
  | save => exact Or.inr ⟨hattempt, rfl⟩
  | offer reading block =>
      refine Or.inr ⟨?_, rfl⟩
      rw [step]
      split <;> exact hattempt
  | begin reading =>
      have hmay : node.mayBegin = false := by
        rw [mayBegin, hattempt]
        dsimp only
        rw [hrunning]
      refine Or.inr ⟨?_, rfl⟩
      rw [step, hmay, if_neg Bool.false_ne_true]
      exact hattempt
  | acceptMined reading =>
      refine Or.inr ⟨?_, rfl⟩
      rw [step, minedBlock?_of_running hattempt hrunning]
      exact hattempt

/-- **The rounds of an attempt under way are held in turn**, and at its end it recounts the last. -/
theorem Returns.inTurn (h : node.Returns during result) :
    ∀ {last : Option HeldRound} {a : Attempt}, node.attempt = some a → a.Recounts last →
      Attempt.InTurn last (node.rounds during) ∧
        ∃ ended : Attempt, ended.result? = some result ∧
          ended.Recounts ((node.rounds during).getLast?.or last) := by
  induction h with
  | done attempt ended =>
      intro last a hattempt hrecounts
      obtain rfl := Option.some.inj (attempt.symm.trans hattempt)
      exact ⟨trivial, _, ended, hrecounts⟩
  | @goesOn node current event rest result attempt running later ih =>
      intro last a hattempt hrecounts
      obtain rfl := Option.some.inj (attempt.symm.trans hattempt)
      rw [rounds]
      rcases attempt_step_of_running attempt running event with
        ⟨action, rfl, hnext⟩ | ⟨hsame, hnone⟩
      · have hholds : node.holds? (.mine action) = current.holds? node.state action := by
          rw [holds?, attempt]
        cases hheld : current.holds? node.state action with
        | none =>
            rw [hholds, hheld]
            exact ih hnext (hrecounts.step node.setup hheld)
        | some held =>
            rw [hholds, hheld, Option.toList_some, List.singleton_append,
              Attempt.getLast?_cons_or]
            obtain ⟨hturn, hended⟩ := ih hnext (Attempt.recounts_held node.setup hheld)
            exact ⟨⟨hrecounts.next hheld, hturn⟩, hended⟩
      · rw [hnone]
        exact ih hsame hrecounts

/-- The rounds that are held during a call. -/
def callRounds (node : Node) (now : UInt64) (during : List NodeEvent) : List HeldRound :=
  (node.step (.begin now)).rounds during

theorem Calls.inTurn (h : node.Calls now during result) :
    Attempt.InTurn none (node.callRounds now during) ∧
      ∃ ended : Attempt, ended.result? = some result ∧
        ended.Recounts (node.callRounds now during).getLast? := by
  have hattempt : (node.step (.begin now)).attempt =
      some (Attempt.start node.setup node.state now).2 :=
    congrArg Node.attempt (step_begin h.may now)
  obtain ⟨hturn, ended, hended, hrecounts⟩ :=
    h.returns.inTurn hattempt (Attempt.recounts_start node.setup node.state now)
  rw [Option.or_none] at hrecounts
  exact ⟨hturn, ended, hended, hrecounts⟩

/-- **What the verifiers of a call are handed**, whatever peers answer and whatever else happens. -/
theorem call_attests (h : node.Calls now during result) :
    Attempt.Attests (node.callRounds now during) result := by
  obtain ⟨hturn, ended, hended, hrecounts⟩ := h.inTurn
  exact hturn.attests hended hrecounts

/-! ### A node with one peer -/

/-- One peer is asked, and every slice of a search tries a nonce. -/
structure AsksOne (setup : MinerSetup) (peer : Address) : Prop where
  peers : setup.peers = [peer]
  fanout : 0 < setup.fanout
  slice : 0 < min setup.checkInterval setup.noncesPerRound

theorem asksOne_ofParams (miner : MinerKey) (peer : Address) (p : Params) :
    AsksOne (.ofParams miner [peer] p) peer where
  peers := rfl
  fanout := Nat.lt_of_lt_of_le Nat.zero_lt_one (Nat.le_max_right _ _)
  slice := MinerSetup.slice_pos miner [peer] p

/-- The node while this attempt is under way in this state. -/
def trying (node : Node) (s : NodeState) (a : Attempt) : Node :=
  { node with state := s, attempt := some a }

/-- The events carry the attempt under way to its result, and these rounds are held meanwhile. -/
structure Course (node : Node) (events : List NodeEvent) (held : List HeldRound)
    (result : Except MiningError Block) : Prop where
  returns : node.Returns events result
  rounds : node.rounds events = held

variable {s : NodeState} {a : Attempt} {rest : List NodeEvent} {held : List HeldRound}

theorem course_over (hended : a.result? = some result) : (node.trying s a).Course [] [] result :=
  ⟨.done rfl hended, rfl⟩

/-- One step of the attempt, and the course of what follows. -/
theorem Course.mine {t : NodeState} {a' : Attempt} {action : AttemptEvent}
    (h : (node.trying t a').Course rest held result) (hrunning : a.result? = none)
    (hstep : a.step node.setup s action = (t, a')) :
    (node.trying s a).Course (.mine action :: rest) ((a.holds? s action).toList ++ held)
      result := by
  have hnext : (node.trying s a).step (.mine action) = node.trying t a' := step_mine rfl hstep
  refine ⟨.goesOn rfl hrunning (hnext ▸ h.returns), ?_⟩
  show ((node.trying s a).holds? (.mine action)).toList ++
    ((node.trying s a).step (.mine action)).rounds rest = _
  rw [hnext, h.rounds]
  rfl

/-- Unless peers are called, no round is held. -/
theorem Course.quietly {t : NodeState} {a' : Attempt} {action : AttemptEvent}
    (h : (node.trying t a').Course rest held result) (hrunning : a.result? = none)
    (hstep : a.step node.setup s action = (t, a')) (hcall : action ≠ .call) :
    (node.trying s a).Course (.mine action :: rest) held result := by
  have hcourse := h.mine hrunning hstep
  rwa [Attempt.holds?_eq_none hcall] at hcourse

/-- What was taken is given back, and that is the end. -/
theorem course_release {error : MiningError} (hstage : a.stage = .releasing error) (now : UInt64) :
    (node.trying s a).Course [.mine (.proceed now)] [] (.error error) := by
  have hstep : a.step node.setup s (.proceed now) =
      (s.release a.candidate, a.conclude (.error error)) := by
    simp only [Attempt.step, hstage]
  exact (course_over (Attempt.result?_conclude a (.error error))).quietly
    (Attempt.result?_eq_none hstage rfl) hstep (by simp)

/-- On the tip a second set that reached its quorum finishes the block, and that is the end. -/
theorem course_settle {round : AttestationRound} (hstage : a.stage = .settling round)
    (htip : s.chain.tipDigest = a.candidate.previous) (hquorum : round.hasQuorum = true)
    (now : UInt64) :
    (node.trying s a).Course [.mine (.proceed now)] []
      (.ok (Attempt.withPostSet a.candidate round)) := by
  have hsettled : (Attempt.settle s a round now).2.result? =
      some (.ok (Attempt.withPostSet a.candidate round)) := by
    rw [Attempt.settle, if_neg (not_not_intro htip), if_neg (by rw [hquorum]; decide)]
    dsimp only
    exact Attempt.result?_conclude _ _
  have hstep : a.step node.setup s (.proceed now) = Attempt.settle s a round now := by
    simp only [Attempt.step, hstage]
  exact (course_over hsettled).quietly (Attempt.result?_eq_none hstage rfl) hstep (by simp)

/-- A rival block enters the chain while the attempt goes on. -/
theorem Course.offered {reading : UInt64} {block : Block}
    (h : (node.trying (s.append block) a).Course rest held result) (hrunning : a.result? = none)
    (hok : s.rules.Acceptable s.chain reading block) :
    (node.trying s a).Course (.offer reading block :: rest) held result := by
  have hnext : (node.trying s a).step (.offer reading block) = node.trying (s.append block) a :=
    step_offer (NodeState.acceptBlock_eq_ok_iff.mpr ⟨hok, rfl⟩)
  refine ⟨.goesOn rfl hrunning (hnext ▸ h.returns), ?_⟩
  show ((node.trying s a).step (.offer reading block)).rounds rest = held
  rw [hnext, h.rounds]

/-- If the tip has moved, the candidate is built anew from what waits. -/
theorem Course.rebuilt {round : AttestationRound}
    (h : ∀ (t : NodeState) (anew : Attempt), s.SameLedger t → anew.stage = .calling .opening →
      anew.candidate = s.freshCandidate a.candidate.miner now →
        (node.trying t anew).Course rest held result)
    (hstage : a.stage = .settling round) (hsound : s.Sound a.candidate.transactions)
    (htip : s.chain.tipDigest ≠ a.candidate.previous) (hwaiting : s.pool.pending ≠ []) :
    (node.trying s a).Course (.mine (.proceed now) :: rest) held result := by
  have hstep : a.step node.setup s (.proceed now) = Attempt.settle s a round now := by
    simp only [Attempt.step, hstage]
  rcases hsound.tidy.resync_cases hsound.anchored.link now with
    ⟨hcurrent, -, -⟩ | ⟨-, -, hanew, -⟩ | ⟨-, hdry, -, -⟩
  · exact absurd (of_decide_eq_true hcurrent).1 htip
  · rcases Attempt.settle_cases htip round now with ⟨anew, block, hok, hnext⟩ | ⟨e, herror, -⟩
    · obtain ⟨-, rfl⟩ := Prod.mk.inj (Except.ok.inj (hanew.symm.trans hok))
      refine (h _ _ (NodeState.sameLedger_resync s a.candidate now) rfl rfl).quietly
        (Attempt.result?_eq_none hstage rfl) (hstep.trans hnext) (by simp)
    · exact absurd (hanew.symm.trans herror) (by simp)
  · exact absurd hdry hwaiting

/-- A round in which one peer is asked. -/
theorem Course.round {purpose : RoundPurpose} {peer : Address} {answers : PeerAnswers}
    {obtained : List Attestation}
    (h : (node.trying s (a.closeRound purpose ⟨s.requiredQuorum, obtained⟩)).Course rest held
      result)
    (hobtained :
      (answers.judge s.chain.miners.contains a.candidate.payload).toOption.toList = obtained)
    (hstage : a.stage = .calling purpose) (hone : AsksOne node.setup peer)
    (hrequired : 0 < s.requiredQuorum) :
    (node.trying s a).Course (.mine .call :: .mine (.answer 0 answers) :: rest)
      (⟨purpose, a.candidate, s.requiredQuorum⟩ :: held) result := by
  obtain ⟨asking, hasking⟩ : ∃ asking : Attempt, asking = { a with
      stage := .gathering purpose a.candidate.payload s.chain.miners
        ⟨⟨s.requiredQuorum, []⟩, node.setup.fanout, [], [peer]⟩ } := ⟨_, rfl⟩
  have hgathering := congrArg Attempt.stage hasking
  have hcall :=
    Attempt.step_call_of_one_peer node.setup hone.peers hone.fanout hrequired hstage
  have hanswer := Attempt.step_answer_of_one_peer (s := s) node.setup hgathering answers
  have hclosed : ∀ round, asking.closeRound purpose round = a.closeRound purpose round := by
    intro round
    rw [hasking]
    cases purpose <;> rfl
  rw [← hasking] at hcall
  rw [hclosed, hobtained] at hanswer
  have hheld : a.holds? s .call = some ⟨purpose, a.candidate, s.requiredQuorum⟩ :=
    Attempt.holds?_eq_some_iff.mpr ⟨purpose, hstage, rfl, rfl⟩
  have hanswered := h.quietly (Attempt.result?_eq_none hgathering rfl) hanswer (by simp)
  have hcourse := hanswered.mine (Attempt.result?_eq_none hstage rfl) hcall
  rwa [hheld] at hcourse

/-- A nonce that is found while the first set is short is spent on another round. -/
theorem Course.spent (h : ∀ hashes, (node.trying s { a with
      hashes, stage := .calling .resealing }).Course rest held result)
    (hstage : a.stage = .searching 0) (hshort : a.preQuorum = false)
    (heasy : ∀ digest, (Target.ofDifficulty a.candidate.difficulty).admits digest = true)
    (hsize : 0 < min node.setup.checkInterval node.setup.noncesPerRound) (elapsed : Duration) :
    (node.trying s a).Course (.mine (.search elapsed) :: rest) held result := by
  obtain ⟨hashes, hsearch⟩ :=
    Attempt.step_search_of_short (s := s) node.setup hstage hshort heasy hsize elapsed
  exact (h hashes).quietly (Attempt.result?_eq_none hstage rfl) hsearch (by simp)

/-- One that is found after the first set has its quorum is kept. -/
theorem Course.found {elapsed : Duration} (h : ∀ hashes, (node.trying s { a with
      candidate := { a.candidate with miningTime := elapsed }
      hashes, phase := .verifying, stage := .calling .closing }).Course rest held result)
    (hstage : a.stage = .searching 0) (hquorum : a.preQuorum = true)
    (heasy : ∀ digest, (Target.ofDifficulty a.candidate.difficulty).admits digest = true)
    (hsize : 0 < min node.setup.checkInterval node.setup.noncesPerRound) :
    (node.trying s a).Course (.mine (.search elapsed) :: rest) held result := by
  obtain ⟨hashes, hsearch⟩ :=
    Attempt.step_search_of_easy (s := s) node.setup hstage hquorum heasy hsize elapsed
  exact (h hashes).quietly (Attempt.result?_eq_none hstage rfl) hsearch (by simp)

/-- How a verifier answers that attests. -/
def attesting (attestation : Attestation) : PeerAnswers :=
  ⟨.ok attestation.key, .ok (.attested attestation)⟩

/-- How a peer answers that is out of reach. -/
def silent : PeerAnswers := ⟨.error .timeout, .error .timeout⟩

theorem obtained_attesting {eligible : MinerKey → Bool} {payload : Bytes}
    {attestation : Attestation} (heligible : eligible attestation.key = true)
    (hverifies : attestation.key.verifies payload attestation.signature = true) :
    ((attesting attestation).judge eligible payload).toOption.toList = [attestation] := by
  rw [PeerAnswers.judge_eq_ok_iff.mpr ⟨rfl, heligible, rfl, hverifies⟩]
  rfl

/-- What happens during a call whose peer attests at first, and cannot be reached when it is asked
again. -/
def lapsingEvents (attestation : Attestation) (settled : UInt64) : List NodeEvent :=
  [.mine .call, .mine (.answer 0 (attesting attestation)), .mine (.search .zero),
    .mine .call, .mine (.answer 0 silent), .mine (.proceed settled)]

/-- **A round that falls short with one attestation is repeated about a block that lists it.** -/
theorem course_lapsing {peer : Address} {attestation : Attestation}
    (hstage : a.stage = .calling .opening) (hone : AsksOne node.setup peer)
    (hquorum : 1 < s.requiredQuorum)
    (heasy : ∀ digest, (Target.ofDifficulty a.candidate.difficulty).admits digest = true)
    (heligible : s.chain.miners.contains attestation.key = true)
    (hverifies : attestation.key.verifies a.candidate.payload attestation.signature = true)
    (settled : UInt64) :
    (node.trying s a).Course (lapsingEvents attestation settled)
      [⟨.opening, a.candidate, s.requiredQuorum⟩,
        ⟨.resealing, Attempt.withPreSet a.candidate ⟨s.requiredQuorum, [attestation]⟩,
          s.requiredQuorum⟩]
      (.error (.quorumFailed .preMining 0 s.requiredQuorum)) := by
  have hpos : 0 < s.requiredQuorum := Nat.lt_of_succ_lt hquorum
  have hshort : (AttestationRound.mk s.requiredQuorum [attestation]).hasQuorum = false :=
    decide_eq_false (Nat.not_le.mpr hquorum)
  have hnone : (AttestationRound.mk s.requiredQuorum []).hasQuorum = false :=
    decide_eq_false (Nat.not_le.mpr hpos)
  refine Course.round ?_ (obtained_attesting heligible hverifies) hstage hone hpos
  refine Course.spent (a := a.closeRound .opening ⟨s.requiredQuorum, [attestation]⟩)
    (fun hashes => ?_) rfl hshort heasy hone.slice .zero
  refine Course.round ?_ rfl rfl hone hpos
  exact course_release (Attempt.stage_closeRound_resealing hnone) settled

/-- What happens during a call whose peer cannot be reached at first, and attests when it is asked
again. -/
def recoveringEvents (pre post : Attestation) (elapsed : Duration) (settled : UInt64) :
    List NodeEvent :=
  [.mine .call, .mine (.answer 0 silent), .mine (.search .zero), .mine .call,
    .mine (.answer 0 (attesting pre)), .mine (.search elapsed), .mine .call,
    .mine (.answer 0 (attesting post)), .mine (.proceed settled)]

/-- The rounds of that call. -/
def recoveringRounds (candidate : Block) (pre : Attestation) (elapsed : Duration) :
    List HeldRound :=
  [⟨.opening, candidate, 1⟩, ⟨.resealing, Attempt.withPreSet candidate ⟨1, []⟩, 1⟩,
    ⟨.closing, { Attempt.withPreSet candidate ⟨1, [pre]⟩ with miningTime := elapsed }, 1⟩]

/-- The steps of its attempt up to the second set of attestations. -/
def verifyingSteps (pre post : Attestation) (elapsed : Duration) : List AttemptEvent :=
  [.call, .answer 0 silent, .search .zero, .call, .answer 0 (attesting pre), .search elapsed, .call,
    .answer 0 (attesting post)]

theorem recoveringEvents_eq (pre post : Attestation) (elapsed : Duration) (settled : UInt64) :
    recoveringEvents pre post elapsed settled =
      (verifyingSteps pre post elapsed).map .mine ++ [.mine (.proceed settled)] := rfl

/-- A round that falls short with nothing is repeated, and its quorum leads to a second set. -/
theorem Course.verifying {peer : Address} {pre post : Attestation} {elapsed : Duration}
    (h : ∀ settling : Attempt, settling.stage = .settling ⟨1, [post]⟩ →
      settling.candidate =
        { Attempt.withPreSet a.candidate ⟨1, [pre]⟩ with miningTime := elapsed } →
        (node.trying s settling).Course rest held result)
    (hstage : a.stage = .calling .opening) (hone : AsksOne node.setup peer)
    (hquorum : s.requiredQuorum = 1)
    (heasy : ∀ digest, (Target.ofDifficulty a.candidate.difficulty).admits digest = true)
    (heligible : s.chain.miners.contains pre.key = true)
    (hpre : pre.key.verifies (Attempt.withPreSet a.candidate ⟨1, []⟩).payload pre.signature = true)
    (heligible' : s.chain.miners.contains post.key = true)
    (hpost : post.key.verifies
      { Attempt.withPreSet a.candidate ⟨1, [pre]⟩ with miningTime := elapsed }.payload
        post.signature = true) :
    (node.trying s a).Course ((verifyingSteps pre post elapsed).map .mine ++ rest)
      (recoveringRounds a.candidate pre elapsed ++ held) result := by
  have hpos : 0 < s.requiredQuorum := by
    rw [hquorum]
    exact Nat.one_pos
  rw [recoveringRounds]
  have hnone : (AttestationRound.mk 1 []).hasQuorum = false := rfl
  have hreached : ∀ attestation, (AttestationRound.mk 1 [attestation]).hasQuorum = true :=
    fun _ => rfl
  rw [← hquorum] at h hpre hpost hnone hreached ⊢
  refine Course.round ?_ rfl hstage hone hpos
  refine Course.spent (a := a.closeRound .opening ⟨s.requiredQuorum, []⟩)
    (fun hashes => ?_) rfl hnone heasy hone.slice .zero
  refine Course.round ?_ (obtained_attesting heligible hpre) rfl hone hpos
  rw [Attempt.closeRound_resealing (hreached pre)]
  refine Course.found (fun hashes => ?_) rfl rfl heasy hone.slice
  refine Course.round ?_ (obtained_attesting heligible' hpost) rfl hone hpos
  exact h _ rfl rfl

/-- On the tip that second set leads to the block. -/
theorem course_recovering {peer : Address} {pre post : Attestation} {elapsed : Duration}
    (hstage : a.stage = .calling .opening) (hone : AsksOne node.setup peer)
    (hquorum : s.requiredQuorum = 1) (htip : s.chain.tipDigest = a.candidate.previous)
    (heasy : ∀ digest, (Target.ofDifficulty a.candidate.difficulty).admits digest = true)
    (heligible : s.chain.miners.contains pre.key = true)
    (hpre : pre.key.verifies (Attempt.withPreSet a.candidate ⟨1, []⟩).payload pre.signature = true)
    (heligible' : s.chain.miners.contains post.key = true)
    (hpost : post.key.verifies
      { Attempt.withPreSet a.candidate ⟨1, [pre]⟩ with miningTime := elapsed }.payload
        post.signature = true) (settled : UInt64) :
    (node.trying s a).Course (recoveringEvents pre post elapsed settled)
      (recoveringRounds a.candidate pre elapsed)
      (.ok (Attempt.withPostSet
        { Attempt.withPreSet a.candidate ⟨1, [pre]⟩ with miningTime := elapsed } ⟨1, [post]⟩)) := by
  rw [recoveringEvents_eq, ← List.append_nil (recoveringRounds a.candidate pre elapsed)]
  refine Course.verifying (fun settling hsettling hcandidate => ?_) hstage hone hquorum heasy
    heligible hpre heligible' hpost
  rw [← hcandidate]
  refine course_settle hsettling ?_ rfl settled
  rw [htip, hcandidate]
  rfl

/-- How a call begins at a node that was given a transaction when none waited. -/
theorem begun_given {base : NodeState} {tx : Transaction} (hstate : node.state = (base.submit tx).1)
    (hmay : node.mayBegin = true) (hsound : base.Sound []) (hdry : base.pool.pending = [])
    (hnew : ¬Recorded base.chain.blocks tx.digest) (now : UInt64) :
    ∃ s a, node.step (.begin now) = node.trying s a ∧ base.SameLedger s ∧
      s.Sound [tx] ∧ s.pool.pending = [tx] ∧ a.stage = .calling .opening ∧
      a.candidate = .candidate node.setup.miner [tx] base.nextDifficulty
        (max now base.chain.tip.timestamp) base.chain.tipDigest := by
  have hgiven := hsound.submit tx
  have hledger := NodeState.sameLedger_submit base tx
  have hpending : node.state.pool.pending = [tx] := by
    rw [hstate, NodeState.pending_submit_of_not_knows hsound.tidy.orderly, hdry, List.nil_append]
    rintro (hwaits | hfinal)
    · rw [Pool.digests, hdry] at hwaits
      exact absurd hwaits List.not_mem_nil
    · exact hnew ((hsound.indexed.finalized _).mp hfinal)
  rw [← hstate] at hgiven hledger
  have hsame := Attempt.sameLedger_start node.setup node.state now
  have hkept := NodeState.pending_buildCandidate hgiven.tidy.orderly node.setup.miner now
  rw [← (Attempt.start_cases node.setup node.state now).1, hpending] at hkept
  refine ⟨_, _, step_begin hmay now, hledger.trans hsame, ?_⟩
  rcases Attempt.start_of_sound node.setup hgiven now with
    ⟨hempty, -, -⟩ | ⟨-, htidy, hstage, hcandidate⟩
  · exact absurd (hpending.symm.trans hempty) (List.cons_ne_nil _ _)
  · rw [hpending] at htidy
    rw [hcandidate, NodeState.freshCandidate, hpending, NodeState.nextDifficulty, hledger.chain,
      hledger.rules]
    exact ⟨hgiven.of_sameLedger hsame htidy, hkept, hstage, rfl⟩

/-- The peer's key, which is that of the secret two. -/
def verifierKey : MinerKey :=
  ⟨[2, 198, 4, 127, 148, 65, 237, 125, 109, 48, 69, 64, 110, 149, 192, 124, 216, 92, 119, 142, 75,
    140, 239, 60, 167, 171, 172, 9, 185, 92, 112, 158, 229]⟩

/-- Where the peer is found. -/
def neighbour : Address := ⟨.short 127 0 0 1, 9000⟩

/-- What the node is given. -/
def payment : Transaction := ⟨⟨[]⟩, ⟨[]⟩, 1, 2⟩

/-- What the node builds whose secret is one, where this is the tip. -/
def candidateOn (tip : Digest) : Block :=
  .candidate (Identity.minerKey ⟨1, by decide, by decide⟩) [payment] 1 8 tip

/-- The digest of genesis. -/
def genesisDigest : Digest :=
  ⟨[27, 103, 171, 59, 123, 134, 32, 18, 42, 191, 97, 36, 59, 81, 33, 86, 249, 117, 26, 192, 105,
    152, 231, 34, 112, 22, 242, 57, 232, 98, 128, 154], rfl⟩

theorem digest_genesis : Block.genesis.digest = genesisDigest := by
  decide +kernel

/-- The digest of the block that the peer has mined on it. -/
def rivalDigest : Digest :=
  ⟨[210, 3, 195, 81, 186, 176, 175, 251, 171, 33, 238, 198, 181, 122, 71, 87, 55, 123, 10, 84, 210,
    70, 84, 198, 20, 74, 205, 159, 39, 84, 81, 56], rfl⟩

theorem digest_rivalBy : (rivalBy verifierKey).digest = rivalDigest := by
  rw [rivalBy, Chain.start, digest_genesis]
  decide +kernel

theorem payment_not_in_rival :
    payment.digest ∉ (rivalBy verifierKey).transactions.map (·.digest) := by
  decide +kernel

/-! ### The peer has mined the only block -/

/-- A node that is given a transaction after its peer has mined a block. -/
def paired : Node :=
  (fresh ⟨1, by decide, by decide⟩ [neighbour] .easiest none).run
    [.offer 7 (rivalBy verifierKey), .submit payment]

/-- The verifier's signature over the candidate's payload. -/
def preAttestation : Attestation where
  key := verifierKey
  signature :=
    ⟨[143, 223, 85, 154, 33, 147, 210, 97, 98, 77, 209, 167, 9, 251, 251, 249, 48, 5, 165, 86, 251,
      84, 2, 18, 21, 53, 252, 88, 66, 24, 25, 10, 35, 166, 5, 230, 147, 222, 100, 138, 28, 26, 95,
      154, 30, 31, 145, 58, 217, 54, 213, 144, 246, 75, 142, 34, 45, 82, 129, 152, 83, 221, 85, 183]⟩

/-- Its signature over that of the block whose nonce was found. -/
def postAttestation : Attestation where
  key := verifierKey
  signature :=
    ⟨[99, 162, 221, 116, 114, 120, 199, 118, 176, 151, 94, 19, 97, 104, 177, 184, 104, 29, 25, 125,
      124, 168, 110, 137, 129, 161, 186, 133, 93, 158, 69, 14, 103, 249, 9, 216, 176, 158, 13, 9,
      54, 104, 130, 50, 52, 203, 46, 71, 114, 78, 108, 104, 89, 34, 245, 21, 149, 119, 229, 30, 18,
      92, 244, 249]⟩

/-- The block that comes of it. -/
def pairedBlock : Block :=
  Attempt.withPostSet { Attempt.withPreSet (candidateOn rivalDigest)
    ⟨1, [preAttestation]⟩ with miningTime := .zero } ⟨1, [postAttestation]⟩

/-- The state in which it is given the transaction. -/
def pairedState : NodeState := (NodeState.start .easiest).append (rivalBy verifierKey)

theorem paired_eq : paired =
    { fresh ⟨1, by decide, by decide⟩ [neighbour] .easiest none with
      state := (pairedState.submit payment).1 } := by
  show ((fresh ⟨1, by decide, by decide⟩ [neighbour] .easiest none).step
    (.offer 7 (rivalBy verifierKey))).step (.submit payment) = _
  rw [step_offer_rivalBy (.refl _)]
  rfl

theorem mayBegin_paired : paired.mayBegin = true := by
  rw [paired_eq]
  rfl

theorem setup_paired : paired.setup =
    .ofParams (Identity.minerKey ⟨1, by decide, by decide⟩) [neighbour] .easiest := by
  rw [paired, setup_run, fresh, ofState]

theorem blocks_pairedState : pairedState.chain.blocks = [.genesis] ++ [rivalBy verifierKey] :=
  Chain.blocks_push .start (rivalBy verifierKey)

theorem sound_pairedState : pairedState.Sound [] :=
  (NodeState.sound_start .easiest).append (acceptable_rivalBy verifierKey)

theorem tipDigest_pairedState : pairedState.chain.tipDigest = rivalDigest := by
  rw [pairedState, NodeState.append, Chain.push, digest_rivalBy]

theorem begun_paired :
    ∃ s a, paired.step (.begin 8) = paired.trying s a ∧ pairedState.SameLedger s ∧
      s.Sound [payment] ∧ s.pool.pending = [payment] ∧ a.stage = .calling .opening ∧
      a.candidate = candidateOn rivalDigest := by
  have hdry : pairedState.pool.pending = [] := by
    show Pool.sweep _ [] = []
    rw [Pool.sweep]
  have hnew : ¬Recorded pairedState.chain.blocks payment.digest := by
    rw [blocks_pairedState, recorded_append, recorded_singleton, recorded_singleton]
    exact not_or_intro List.not_mem_nil payment_not_in_rival
  obtain ⟨s, a, hbegun, hsame, hsound, hpending, hstage, hcandidate⟩ :=
    begun_given (congrArg Node.state paired_eq) mayBegin_paired sound_pairedState hdry hnew 8
  refine ⟨s, a, hbegun, hsame, hsound, hpending, hstage, ?_⟩
  have hdifficulty : pairedState.nextDifficulty = 1 := by
    decide
  have htime : max 8 pairedState.chain.tip.timestamp = 8 := by
    decide
  rw [hcandidate, hdifficulty, tipDigest_pairedState, htime, setup_paired, candidateOn,
    MinerSetup.ofParams]

theorem quorum_pairedState : pairedState.requiredQuorum = 1 := by
  decide

theorem eligible_pairedState : pairedState.chain.miners.contains verifierKey = true := by
  decide

theorem verifies_preAttestation :
    verifierKey.verifies (Attempt.withPreSet (candidateOn rivalDigest) ⟨1, []⟩).payload
      preAttestation.signature = true := by
  decide +kernel

theorem verifies_postAttestation :
    verifierKey.verifies
      { Attempt.withPreSet (candidateOn rivalDigest) ⟨1, [preAttestation]⟩ with
        miningTime := .zero }.payload postAttestation.signature = true := by
  decide +kernel

/-- A call during which the peer is out of reach at first. -/
theorem course_paired :
    (paired.step (.begin 8)).Course (recoveringEvents preAttestation postAttestation .zero 9)
      (recoveringRounds (candidateOn rivalDigest) preAttestation .zero)
      (.ok pairedBlock) := by
  obtain ⟨s, a, hbegun, hsame, -, -, hstage, hcandidate⟩ := begun_paired
  have hquorum : s.requiredQuorum = 1 := by
    rw [NodeState.requiredQuorum, hsame.rules, hsame.chain]
    exact quorum_pairedState
  have heligible : s.chain.miners.contains verifierKey = true := by
    rw [hsame.chain]
    exact eligible_pairedState
  rw [hbegun, pairedBlock, ← hcandidate]
  refine course_recovering hstage (setup_paired ▸ asksOne_ofParams _ _ _) hquorum ?_ ?_ heligible ?_
    heligible ?_ 9
  · rw [hsame.chain, hcandidate]
    exact tipDigest_pairedState
  · rw [hcandidate]
    exact Target.admits_one
  · rw [hcandidate]
    exact verifies_preAttestation
  · rw [hcandidate]
    exact verifies_postAttestation

theorem calls_paired :
    paired.Calls 8 (recoveringEvents preAttestation postAttestation .zero 9) (.ok pairedBlock) :=
  ⟨mayBegin_paired, course_paired.returns⟩

theorem call_attests_paired :
    paired.Calls 8 (recoveringEvents preAttestation postAttestation .zero 9) (.ok pairedBlock) ∧
      Attempt.Attests
        (paired.callRounds 8 (recoveringEvents preAttestation postAttestation .zero 9))
        (.ok pairedBlock) :=
  ⟨calls_paired, call_attests calls_paired⟩

/-! ### The peer has mined one of two blocks -/

/-- A block that a second miner has in the chain after that of the first. -/
def laterRival : Block :=
  .candidate ⟨[7]⟩ [⟨⟨[]⟩, ⟨[]⟩, 7, 8⟩] 1 0 rivalDigest

def laterDigest : Digest :=
  ⟨[164, 187, 95, 63, 224, 121, 254, 17, 25, 57, 58, 100, 39, 40, 5, 31, 192, 117, 123, 32, 39, 69,
    137, 93, 5, 202, 175, 218, 197, 43, 210, 213], rfl⟩

theorem digest_laterRival : laterRival.digest = laterDigest := by
  decide +kernel

/-- Parameters under which a quorum is all miners. -/
def unanimous : Params := { Params.easiest with quorumDivisor := 1 }

def shortState : NodeState :=
  .ofParts ((Chain.start.push (rivalBy verifierKey)).push laterRival) .empty unanimous

/-- A node with one peer that is given a transaction when there are two miners in its chain. -/
def shortHanded : Node :=
  (ofState ⟨1, by decide, by decide⟩ [neighbour] unanimous shortState none).run
    [.submit payment]

/-- The first miner's signature over the candidate's payload. -/
def shortAttestation : Attestation where
  key := verifierKey
  signature :=
    ⟨[189, 245, 48, 202, 98, 28, 124, 188, 152, 183, 251, 81, 133, 5, 249, 111, 215, 215, 7, 47, 62,
      207, 157, 236, 101, 250, 57, 119, 30, 237, 142, 92, 85, 156, 38, 17, 93, 225, 121, 19, 49, 2,
      44, 239, 15, 88, 209, 197, 17, 252, 185, 20, 84, 115, 39, 37, 45, 226, 121, 37, 134, 154, 61,
      226]⟩

theorem setup_shortHanded : shortHanded.setup =
    .ofParams (Identity.minerKey ⟨1, by decide, by decide⟩) [neighbour] unanimous := by
  rw [shortHanded, setup_run, ofState]

theorem begun_shortHanded :
    ∃ s a, shortHanded.step (.begin 8) = shortHanded.trying s a ∧
      shortState.SameLedger s ∧ a.stage = .calling .opening ∧
      a.candidate = candidateOn laterDigest := by
  have hlink : laterRival.previous = (Chain.start.push (rivalBy verifierKey)).tip.digest := by
    rw [laterRival, Block.candidate, Chain.push, digest_rivalBy]
  have hsound : shortState.Sound [] :=
    NodeState.sound_ofParts ((Chain.indexed_start.push _).push _) (Chain.checkTipLink_push hlink) _
  have hblocks : shortState.chain.blocks =
      [.genesis] ++ [rivalBy verifierKey] ++ [laterRival] := by
    rw [shortState, NodeState.ofParts, Chain.blocks_push, Chain.blocks_push]
    rfl
  have hlater : payment.digest ∉ laterRival.transactions.map (·.digest) := by
    decide +kernel
  have hnew : ¬Recorded shortState.chain.blocks payment.digest := by
    rw [hblocks, recorded_append, recorded_append, recorded_singleton, recorded_singleton,
      recorded_singleton]
    exact not_or_intro (not_or_intro List.not_mem_nil payment_not_in_rival) hlater
  have hgiven : shortHanded.state = (shortState.submit payment).1 := rfl
  obtain ⟨s, a, hbegun, hsame, -, -, hstage, hcandidate⟩ :=
    begun_given hgiven rfl hsound rfl hnew 8
  refine ⟨s, a, hbegun, hsame, hstage, ?_⟩
  have hdifficulty : shortState.nextDifficulty = 1 := by
    decide
  have htip : shortState.chain.tipDigest = laterDigest := by
    rw [shortState, NodeState.ofParts, Chain.push, digest_laterRival]
  have htime : max 8 shortState.chain.tip.timestamp = 8 := by
    decide
  rw [hcandidate, hdifficulty, htip, htime, setup_shortHanded, candidateOn, MinerSetup.ofParams]

/-- A call during which the peer attests once. -/
theorem course_shortHanded :
    (shortHanded.step (.begin 8)).Course (lapsingEvents shortAttestation 9)
      [⟨.opening, candidateOn laterDigest, 2⟩,
        ⟨.resealing, Attempt.withPreSet (candidateOn laterDigest) ⟨2, [shortAttestation]⟩, 2⟩]
      (.error (.quorumFailed .preMining 0 2)) := by
  obtain ⟨s, a, hbegun, hsame, hstage, hcandidate⟩ := begun_shortHanded
  have hquorum : s.requiredQuorum = 2 := by
    rw [NodeState.requiredQuorum, hsame.rules, hsame.chain]
    decide
  rw [hbegun, ← hcandidate, ← hquorum]
  refine course_lapsing hstage (setup_shortHanded ▸ asksOne_ofParams _ _ _) ?_ ?_ ?_ ?_ 9
  · rw [hquorum]
    exact Nat.one_lt_two
  · rw [hcandidate]
    exact Target.admits_one
  · rw [hsame.chain]
    decide
  · rw [hcandidate]
    decide +kernel

/-- The round that repeats the first one is about a block that lists a verifier already. -/
theorem repeated_round_not_bare :
    shortHanded.Calls 8 (lapsingEvents shortAttestation 9)
        (.error (.quorumFailed .preMining 0 2)) ∧
      ∃ held ∈ shortHanded.callRounds 8 (lapsingEvents shortAttestation 9),
        held.purpose ≠ .closing ∧ ¬held.block.Bare := by
  refine ⟨⟨rfl, course_shortHanded.returns⟩, ?_⟩
  rw [callRounds, course_shortHanded.rounds]
  refine ⟨_, List.mem_cons_of_mem _ (List.mem_singleton_self _), by simp, fun hbare => ?_⟩
  exact absurd hbare.preVerifiers (List.cons_ne_nil _ _)

end Node

end AttestedLedger
