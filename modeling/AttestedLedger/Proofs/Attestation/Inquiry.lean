/-
Who is asked in a round of attestations, and how many at once.

`Collection` is what a round must remember to go on.  `Inquiry` is a round with its history:
which entries of the peer list were asked, in which order, and how many requests have been
answered.  An inquiry is driven by a list of answers, each with the place of the request it
ends, so every order in which requests may be answered is such a list, and what the peers
answer is not restricted in any way.

`Inquiry.Sound` is what holds of an inquiry at every moment: what it holds is genuine, it
never has more under way than are missing nor than the fan-out allows, it goes through the
peer list entry by entry, and it is over when every entry has been answered.  Three
quantities carry the bounds through a step, each counted in `Collection.Within`; a step is
one of the three cases of `complete_cases`, and all three ask further entries in the way
`Asks` describes.

An attempt keeps no history of its round, and other tasks change the node's state between two
answers.  `holdRound_eq` says that it nevertheless is where its inquiry is, answer by answer, so
what is proved of inquiries is proved of the rounds that attempts hold.
-/
import AttestedLedger.Mining.Attempt
import AttestedLedger.Proofs.Attestation.Round

namespace AttestedLedger

namespace Collection

/-! ### Asking further peers -/

/-- `next` asked the entries `asked`, the first of those that were `waiting`, while `kept` were
under way.  A round that drops what is under way asks nobody. -/
structure Asks (waiting kept : List Address) (next : Collection) (asked : List Address) :
    Prop where
  inOrder : asked ++ next.waiting = waiting
  underWay : next.inFlight = kept ++ asked ∨ next.inFlight = [] ∧ asked = []

/-- What is under way fits the fan-out, and with what was obtained it fits the requirement. -/
structure Within (c : Collection) : Prop where
  missing : c.inFlight.length + c.round.obtained ≤ c.round.required
  narrow : c.inFlight.length ≤ c.fanout

variable {c : Collection}

theorem asks_refill (c : Collection) :
    Asks c.waiting c.inFlight c.refill (c.waiting.take (c.width - c.inFlight.length)) where
  inOrder := List.take_append_drop _ _
  underWay := Or.inl rfl

theorem within_refill (h : c.Within) : c.refill.Within := by
  obtain ⟨hmissing, hnarrow⟩ := h
  have hroom : c.refill.inFlight.length ≤ max c.inFlight.length c.width := by
    simp only [refill, List.length_append, List.length_take]
    omega
  have hwidth : c.width ≤ c.round.required - c.round.obtained ∧ c.width ≤ c.fanout :=
    ⟨Nat.min_le_left _ _, Nat.min_le_right _ _⟩
  constructor
  · show c.refill.inFlight.length + c.round.obtained ≤ c.round.required
    omega
  · show c.refill.inFlight.length ≤ c.fanout
    omega

/-! ### One answer -/

/-- The round without the request in place `slot`. -/
def withoutSlot (c : Collection) (slot : Nat) : Collection :=
  { c with inFlight := c.inFlight.eraseIdx slot }

/-- **The three ways in which an answer is taken.** -/
theorem complete_cases (c : Collection) (slot : Nat) (outcome : Except PeerError Attestation) :
    c.complete slot outcome = (c.withoutSlot slot).refill ∨
    ∃ attestation,
      c.complete slot outcome = { (c.withoutSlot slot).record attestation with inFlight := [] } ∨
      c.complete slot outcome = ((c.withoutSlot slot).record attestation).refill := by
  unfold complete
  cases outcome with
  | error e => exact Or.inl rfl
  | ok attestation =>
      refine Or.inr ⟨attestation, ?_⟩
      dsimp only
      split
      · exact Or.inl rfl
      · exact Or.inr rfl

/-- Keeping an attestation changes nothing but the round. -/
theorem record_eq (c : Collection) (attestation : Attestation) :
    c.record attestation = { c with round := (c.record attestation).round } := by
  unfold record
  split <;> rfl

/-- An attestation is kept beside the others, or not at all. -/
theorem obtained_record (c : Collection) (attestation : Attestation) :
    (c.record attestation).round.obtained ≤ c.round.obtained + 1 := by
  unfold record
  split
  · exact Nat.le_succ _
  · simp [AttestationRound.obtained]

theorem fanout_complete (c : Collection) (slot : Nat) (outcome : Except PeerError Attestation) :
    (c.complete slot outcome).fanout = c.fanout := by
  rcases complete_cases c slot outcome with h | ⟨attestation, h | h⟩ <;> rw [h]
  · rfl
  · rw [record_eq]
    rfl
  · rw [record_eq]
    rfl

theorem asks_complete (c : Collection) (slot : Nat) (outcome : Except PeerError Attestation) :
    ∃ asked, Asks c.waiting (c.inFlight.eraseIdx slot) (c.complete slot outcome) asked := by
  rcases complete_cases c slot outcome with h | ⟨attestation, h | h⟩ <;> rw [h]
  · exact ⟨_, asks_refill (c.withoutSlot slot)⟩
  · rw [record_eq]
    exact ⟨[], rfl, Or.inr ⟨rfl, rfl⟩⟩
  · rw [record_eq]
    exact ⟨_, asks_refill { c.withoutSlot slot with round := _ }⟩

/-- A request that ends makes room for its attestation. -/
theorem Within.record (h : c.Within) {slot : Nat} (hslot : slot < c.inFlight.length)
    (attestation : Attestation) : ((c.withoutSlot slot).record attestation).Within := by
  have hobtained := obtained_record (c.withoutSlot slot) attestation
  have hrequired := required_record (c.withoutSlot slot) attestation
  have hlength : (c.withoutSlot slot).inFlight.length + 1 = c.inFlight.length := by
    simp only [withoutSlot, List.length_eraseIdx_of_lt hslot]
    omega
  obtain ⟨hmissing, hnarrow⟩ := h
  rw [record_eq] at hobtained hrequired ⊢
  simp only [withoutSlot] at *
  constructor <;> simp only <;> omega

/-- **Whatever is answered, no more than is missing and no more than is allowed is under way.** -/
theorem Within.complete (h : c.Within) {slot : Nat} (hslot : slot < c.inFlight.length)
    (outcome : Except PeerError Attestation) : (c.complete slot outcome).Within := by
  rcases complete_cases c slot outcome with heq | ⟨attestation, heq | heq⟩ <;> rw [heq]
  · have hlength := List.length_eraseIdx_le c.inFlight slot
    obtain ⟨hmissing, hnarrow⟩ := h
    refine within_refill ⟨?_, ?_⟩ <;> simp only [withoutSlot] <;> omega
  · have hrecorded := h.record hslot attestation
    exact ⟨Nat.le_trans (Nat.add_le_add_right (Nat.zero_le _) _) hrecorded.missing, Nat.zero_le _⟩
  · exact within_refill (h.record hslot attestation)

end Collection

/-! ### A round with its history -/

/-- A round of attestations and what happened in it. -/
structure Inquiry where
  collection : Collection
  /-- The entries of the peer list that were asked, in the order in which they were. -/
  asked : List Address
  /-- How many requests were answered. -/
  answered : Nat

namespace Inquiry

/-- A round begins by asking as many peers as may be under way. -/
def start (required fanout : Nat) (peers : List Address) : Inquiry :=
  let c := Collection.start required fanout peers
  ⟨c, c.inFlight, 0⟩

/-- The request in place `slot` is answered, if there is one.  What is then under way behind the
requests that were so before has just been asked. -/
def answer (eligible : List MinerKey) (payload : Bytes) (i : Inquiry) (slot : Nat)
    (answers : PeerAnswers) : Inquiry :=
  if slot < i.collection.inFlight.length then
    let c := i.collection.complete slot (answers.judge eligible.contains payload)
    let kept := i.collection.inFlight.eraseIdx slot
    ⟨c, i.asked ++ c.inFlight.drop kept.length, i.answered + 1⟩
  else i

/-- The round after some answers, each with the place of the request it ends. -/
def run (eligible : List MinerKey) (payload : Bytes) (i : Inquiry)
    (answers : List (Nat × PeerAnswers)) : Inquiry :=
  answers.foldl (fun i (slot, answers) => i.answer eligible payload slot answers) i

/-- The round about a payload that a state holds among a miner's peers, after some answers. -/
def ofState (s : NodeState) (setup : MinerSetup) (payload : Bytes)
    (answers : List (Nat × PeerAnswers)) : Inquiry :=
  (start s.requiredQuorum setup.fanout setup.peers).run s.chain.miners payload answers

/-- What holds of a round over `peers` at every moment. -/
structure Sound (chain : Chain) (required fanout : Nat) (peers : List Address) (payload : Bytes)
    (i : Inquiry) : Prop where
  quorum : i.collection.round.required = required
  /-- So what is under way is never more than what is missing. -/
  missing : i.collection.inFlight.length + i.collection.round.obtained ≤ required
  narrow : i.collection.inFlight.length ≤ fanout
  distinct : i.collection.round.keys.Nodup
  mined : ∀ attestation ∈ i.collection.round.attestations,
    ∃ block ∈ chain.blocks, block.miner = attestation.key
  verified : ∀ attestation ∈ i.collection.round.attestations,
    attestation.key.verifies payload attestation.signature = true
  /-- Every entry was asked or waits, and those asked were asked once and in order. -/
  once : i.asked ++ i.collection.waiting = peers
  silent : required = 0 → i.asked = []
  ends : peers.length ≤ i.answered → i.collection.finished = true

/-! ### The round that an attempt holds -/

/-- An attempt that waits for answers takes each as its inquiry does, and closes the round when
nothing is under way any more. -/
theorem step_gathering (i : Inquiry) (setup : MinerSetup) (s : NodeState) {a : Attempt}
    {purpose : RoundPurpose} {payload : Bytes} {eligible : List MinerKey}
    (hstage : a.stage = .gathering purpose payload eligible i.collection) (slot : Nat)
    (answers : PeerAnswers) :
    a.step setup s (.answer slot answers) =
      (s, if slot < i.collection.inFlight.length then
        a.continueRound purpose payload eligible (i.answer eligible payload slot answers).collection
        else a) := by
  unfold Attempt.step Inquiry.answer
  rw [hstage]
  by_cases hslot : slot < i.collection.inFlight.length
  · simp only [if_pos hslot]
  · simp only [if_neg hslot]

/-- A round that is over takes no more answers. -/
theorem answer_of_finished {i : Inquiry} (h : i.collection.finished = true)
    (eligible : List MinerKey) (payload : Bytes) (slot : Nat) (answers : PeerAnswers) :
    i.answer eligible payload slot answers = i := by
  rw [Collection.finished, List.isEmpty_iff_length_eq_zero] at h
  rw [answer, h, if_neg (Nat.not_lt_zero slot)]

/-- Nor does the attempt, whichever way it went on. -/
theorem step_answer_closeRound (setup : MinerSetup) (s : NodeState) (a : Attempt)
    (purpose : RoundPurpose) (round : AttestationRound) (slot : Nat) (answers : PeerAnswers) :
    (a.closeRound purpose round).step setup s (.answer slot answers) =
      (s, a.closeRound purpose round) := by
  cases purpose with
  | resealing =>
      rw [Attempt.closeRound]
      dsimp only
      split <;> rfl
  | _ => rfl

/-- **An attempt that is where an inquiry is goes where the inquiry goes**, whatever the state is
by then. -/
theorem step_continueRound (i : Inquiry) (setup : MinerSetup) (s : NodeState) (a : Attempt)
    (purpose : RoundPurpose) (payload : Bytes) (eligible : List MinerKey) (slot : Nat)
    (answers : PeerAnswers) :
    (a.continueRound purpose payload eligible i.collection).step setup s (.answer slot answers) =
      (s, a.continueRound purpose payload eligible
        (i.answer eligible payload slot answers).collection) := by
  cases hfinished : i.collection.finished with
  | true =>
      rw [answer_of_finished hfinished, Attempt.continueRound, if_pos hfinished,
        step_answer_closeRound]
  | false =>
      obtain ⟨waiting, hwaiting⟩ : ∃ waiting : Attempt, waiting =
          { a with stage := .gathering purpose payload eligible i.collection } := ⟨_, rfl⟩
      have hthere : a.continueRound purpose payload eligible i.collection = waiting := by
        rw [Attempt.continueRound, if_neg (by rw [hfinished]; exact Bool.false_ne_true), hwaiting]
      -- how a round goes on does not depend on the stage it is in
      have hsame : ∀ c, waiting.continueRound purpose payload eligible c =
          a.continueRound purpose payload eligible c := by
        intro c
        rw [hwaiting]
        cases purpose <;> rfl
      have hgathering := congrArg Attempt.stage hwaiting
      rw [hthere, step_gathering i setup s hgathering]
      by_cases hslot : slot < i.collection.inFlight.length
      · rw [if_pos hslot, hsame]
      · rw [if_neg hslot, answer, if_neg hslot, hthere]

/-- An attempt that calls for a round and is then given answers, each in the state that the node has
by then, since other tasks go on meanwhile. -/
def holdRound (setup : MinerSetup) (s : NodeState) (a : Attempt)
    (given : List (NodeState × Nat × PeerAnswers)) : Attempt :=
  given.foldl (fun a (now, slot, answers) => (a.step setup now (.answer slot answers)).2)
    (a.step setup s .call).2

/-- **The round that an attempt holds is the inquiry into its candidate.** -/
theorem holdRound_eq (setup : MinerSetup) (s : NodeState) {a : Attempt} {purpose : RoundPurpose}
    (hstage : a.stage = .calling purpose) (given : List (NodeState × Nat × PeerAnswers)) :
    holdRound setup s a given =
      a.continueRound purpose a.candidate.payload s.chain.miners
        (ofState s setup a.candidate.payload (given.map Prod.snd)).collection := by
  have hcall : (a.step setup s .call).2 =
      a.continueRound purpose a.candidate.payload s.chain.miners
        (start s.requiredQuorum setup.fanout setup.peers).collection := by
    unfold Attempt.step
    rw [hstage]
    rfl
  rw [holdRound, hcall, ofState]
  generalize start s.requiredQuorum setup.fanout setup.peers = i
  induction given generalizing i with
  | nil => rfl
  | cons first rest ih =>
      obtain ⟨now, slot, answers⟩ := first
      rw [List.foldl_cons]
      dsimp only
      rw [step_continueRound, ih]
      rfl

/-- An attempt that is about to call for a round on a block. -/
def asking (a : Attempt) (purpose : RoundPurpose) (block : Block) : Attempt :=
  { a with candidate := block, stage := .calling purpose }

/-! ### Every answer keeps a round steady -/

/-- What carries the bounds of a round from one answer to the next. -/
structure Steady (required fanout : Nat) (peers : List Address) (i : Inquiry) : Prop where
  quorum : i.collection.round.required = required
  fanout : i.collection.fanout = fanout
  within : i.collection.Within
  once : i.asked ++ i.collection.waiting = peers
  accounted : i.answered + i.collection.inFlight.length ≤ i.asked.length
  silent : required = 0 → i.asked = []

variable {required fanout : Nat} {peers : List Address} {eligible : List MinerKey}
  {payload : Bytes} {i : Inquiry}

theorem steady_start (required fanout : Nat) (peers : List Address) :
    (start required fanout peers).Steady required fanout peers where
  quorum := rfl
  fanout := rfl
  within := Collection.within_refill (by constructor <;> simp [AttestationRound.obtained])
  once := List.take_append_drop _ _
  accounted := Nat.le_of_eq (Nat.zero_add _)
  silent := by
    rintro rfl
    rw [start, Collection.start_zero]

theorem Steady.answer (h : i.Steady required fanout peers) (slot : Nat) (answers : PeerAnswers) :
    (i.answer eligible payload slot answers).Steady required fanout peers := by
  unfold Inquiry.answer
  by_cases hslot : slot < i.collection.inFlight.length
  · rw [if_pos hslot]
    have hwithin := h.within.complete hslot (answers.judge eligible.contains payload)
    have hquorum := Collection.required_complete i.collection slot
      (answers.judge eligible.contains payload)
    have hfanout := Collection.fanout_complete i.collection slot
      (answers.judge eligible.contains payload)
    obtain ⟨asked, hasked⟩ := Collection.asks_complete i.collection slot
      (answers.judge eligible.contains payload)
    generalize i.collection.complete slot (answers.judge eligible.contains payload) = next at *
    -- what stands behind the requests that were kept is what was asked
    have hnew : next.inFlight.drop (i.collection.inFlight.eraseIdx slot).length = asked := by
      rcases hasked.underWay with hkept | ⟨hdropped, hnone⟩
      · rw [hkept, List.drop_left]
      · rw [hdropped, hnone, List.drop_nil]
    have hlength : next.inFlight.length + 1 ≤ i.collection.inFlight.length + asked.length := by
      have hkept := List.length_eraseIdx_of_lt hslot
      rcases hasked.underWay with hunderWay | ⟨hdropped, -⟩
      · rw [hunderWay, List.length_append]
        omega
      · rw [hdropped, List.length_nil]
        omega
    refine ⟨hquorum.trans h.quorum, hfanout.trans h.fanout, hwithin, ?_, ?_, ?_⟩
    · show (i.asked ++ next.inFlight.drop _) ++ next.waiting = peers
      rw [hnew, List.append_assoc, hasked.inOrder]
      exact h.once
    · show i.answered + 1 + next.inFlight.length ≤ (i.asked ++ next.inFlight.drop _).length
      have haccounted := h.accounted
      rw [hnew, List.length_append]
      omega
    · -- a round that requires nothing has nothing under way that could be answered
      intro hzero
      have hmissing := h.within.missing
      rw [h.quorum] at hmissing
      omega
  · rw [if_neg hslot]
    exact h

theorem genuine_answer (h : i.collection.round.Genuine eligible.contains payload) (slot : Nat)
    (answers : PeerAnswers) :
    (i.answer eligible payload slot answers).collection.round.Genuine eligible.contains
      payload := by
  unfold Inquiry.answer
  split
  · exact Collection.genuine_complete h slot answers
  · exact h

/-- **What holds at first and is kept by every answer holds of every run.** -/
theorem run_induction {P : Inquiry → Prop} (eligible : List MinerKey) (payload : Bytes)
    (hstep : ∀ i slot answers, P i → P (i.answer eligible payload slot answers)) :
    ∀ (answers : List (Nat × PeerAnswers)) {i : Inquiry}, P i →
      P (i.run eligible payload answers) := by
  intro answers
  induction answers with
  | nil => intro i h; exact h
  | cons first rest ih => intro i h; exact ih (hstep i first.1 first.2 h)

/-- When as many requests were answered as there are entries, none is under way. -/
theorem Steady.ends (h : i.Steady required fanout peers) (hall : peers.length ≤ i.answered) :
    i.collection.finished = true := by
  have hasked : i.asked.length ≤ peers.length := by
    rw [← h.once, List.length_append]
    exact Nat.le_add_right _ _
  have haccounted := h.accounted
  rw [Collection.finished, List.isEmpty_iff_length_eq_zero]
  omega

/-- **Whatever the peers answer, in whatever order, a round is sound at every moment**, and it is
the round that an attempt about the block holds, whatever happens to the node meanwhile. -/
theorem ofState_sound (s : NodeState) (blocks : List Block) (miner : MinerKey)
    (peers : List Address) (p : Params) (block : Block) (answers : List (Nat × PeerAnswers)) :
    (ofState { s with chain := Chain.start.extend blocks } (.ofParams miner peers p) block.payload
      answers).Sound (Chain.start.extend blocks)
        (s.rules.requiredQuorum (Chain.start.extend blocks)) (max p.attestationFanout.toNat 1)
        peers block.payload ∧
      ∀ (a : Attempt) (purpose : RoundPurpose) (given : List (NodeState × Nat × PeerAnswers)),
        holdRound (.ofParams miner peers p) { s with chain := Chain.start.extend blocks }
            (asking a purpose block) given =
          (asking a purpose block).continueRound purpose block.payload
            (Chain.start.extend blocks).miners
            (ofState { s with chain := Chain.start.extend blocks } (.ofParams miner peers p)
              block.payload (given.map Prod.snd)).collection := by
  have hindexed : (Chain.start.extend blocks).Indexed := .extend blocks Chain.indexed_start
  generalize Chain.start.extend blocks = chain at *
  have hsteady := run_induction chain.miners block.payload
    (fun i slot given h => h.answer slot given) answers
    (steady_start (s.rules.requiredQuorum chain) (max p.attestationFanout.toNat 1) peers)
  have hgenuine := run_induction
    (P := fun i => i.collection.round.Genuine chain.miners.contains block.payload)
    chain.miners block.payload
    (fun i slot given h => genuine_answer h slot given) answers
    (i := start (s.rules.requiredQuorum chain) (max p.attestationFanout.toNat 1) peers)
    (Collection.genuine_start _ _ _)
  refine ⟨⟨hsteady.quorum, ?_, ?_, hgenuine.distinct, ?_, hgenuine.verified, hsteady.once,
    hsteady.silent, hsteady.ends⟩, ?_⟩
  · exact hsteady.quorum ▸ hsteady.within.missing
  · exact hsteady.fanout ▸ hsteady.within.narrow
  · intro attestation hin
    have hminer := hgenuine.eligible attestation hin
    rw [List.contains_iff_mem, hindexed.mem_miners, mem_minersOf] at hminer
    exact List.mem_map.mp hminer.2
  · intro a purpose given
    exact holdRound_eq (.ofParams miner peers p) { s with chain } rfl given

end Inquiry

end AttestedLedger
