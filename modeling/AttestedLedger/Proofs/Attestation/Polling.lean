/-
Rounds whose outcome does not depend on the order of the answers.

Suppose that what each entry of the peer list would answer is settled beforehand.  What is
still open is which of the requests under way is answered next, and that changes who is asked
at all: a round stops asking when it has its quorum, and asks on past failures and past second
attestations by one key.  A `Poll` is an inquiry among such peers, driven by the list of its
picks.

The verdict is nevertheless the same for every order and every fan-out.  `Poll.Tallied` is the
invariant behind it: the keys that are willing are those the round holds and those of the
entries that have not answered, and a place left free while somebody waits means that nothing
is missing (`Collection.Full`).  When nothing is under way either all entries have answered, so
the round holds every willing key, or nothing is missing.
-/
import AttestedLedger.Proofs.Attestation.Inquiry

namespace AttestedLedger

/-! ### Peers that would attest -/

/-- An entry of the peer list with what it answers when it is asked. -/
structure Respondent where
  address : Address
  answers : PeerAnswers

/-- The key that a respondent attests with, if its answers amount to an attestation. -/
def Respondent.key? (eligible : List MinerKey) (payload : Bytes) (r : Respondent) :
    Option MinerKey :=
  match r.answers.judge eligible.contains payload with
  | .ok attestation => some attestation.key
  | .error _ => none

/-- The eligible keys that some of these respondents attest with. -/
def willing (eligible : List MinerKey) (payload : Bytes) (respondents : List Respondent) :
    Finset MinerKey :=
  (respondents.filterMap (·.key? eligible payload)).toFinset

section Willing

variable {eligible : List MinerKey} {payload : Bytes}

/-- **Who is willing.** -/
theorem mem_willing {respondents : List Respondent} {key : MinerKey} :
    key ∈ willing eligible payload respondents ↔
      ∃ r ∈ respondents, ∃ signature,
        r.answers.identity = .ok key ∧ key ∈ eligible ∧
          r.answers.verdict = .ok (.attested ⟨signature, key⟩) ∧
          key.verifies payload signature = true := by
  rw [willing, List.mem_toFinset, List.mem_filterMap]
  refine exists_congr fun r => and_congr_right fun _ => ?_
  unfold Respondent.key?
  constructor
  · intro hkey
    split at hkey
    · rename_i attestation hjudge
      obtain rfl := Option.some.inj hkey
      obtain ⟨hidentity, heligible, hverdict, hverifies⟩ := PeerAnswers.judge_eq_ok_iff.mp hjudge
      exact ⟨attestation.signature, hidentity, List.contains_iff_mem.mp heligible, hverdict,
        hverifies⟩
    · exact absurd hkey (by simp)
  · rintro ⟨signature, hidentity, heligible, hverdict, hverifies⟩
    have hjudge : r.answers.judge eligible.contains payload = .ok ⟨signature, key⟩ :=
      PeerAnswers.judge_eq_ok_iff.mpr
        ⟨hidentity, List.contains_iff_mem.mpr heligible, hverdict, hverifies⟩
    rw [hjudge]

theorem willing_cons (r : Respondent) (respondents : List Respondent) :
    willing eligible payload (r :: respondents) =
      willing eligible payload [r] ∪ willing eligible payload respondents := by
  unfold willing
  rw [← List.singleton_append, List.filterMap_append, List.toFinset_append]

/-- An entry is willing by itself, the others are without it. -/
theorem willing_eraseIdx {respondents : List Respondent} {slot : Nat} {r : Respondent}
    (hr : respondents[slot]? = some r) :
    willing eligible payload respondents =
      willing eligible payload [r] ∪ willing eligible payload (respondents.eraseIdx slot) := by
  obtain ⟨hslot, rfl⟩ := List.getElem?_eq_some_iff.mp hr
  have hperm := (List.getElem_cons_eraseIdx_perm hslot).filterMap (·.key? eligible payload)
  rw [← willing_cons]
  exact (List.toFinset_eq_of_perm _ _ hperm).symm

end Willing

namespace Collection

variable {c : Collection}

/-! ### No place is left free without need -/

/-- As many requests are under way as may be, or nobody waits to be asked. -/
def Full (c : Collection) : Prop := c.width ≤ c.inFlight.length ∨ c.waiting = []

theorem full_refill (c : Collection) : c.refill.Full := by
  by_cases hroom : c.width - c.inFlight.length ≤ c.waiting.length
  · refine Or.inl ?_
    show c.width ≤ (c.inFlight ++ c.waiting.take (c.width - c.inFlight.length)).length
    rw [List.length_append, List.length_take]
    omega
  · exact Or.inr (List.drop_eq_nil_of_le (by omega))

/-- A round with its quorum may ask nobody. -/
theorem width_of_hasQuorum (h : c.round.hasQuorum = true) : c.width = 0 := by
  have hquorum : c.round.required ≤ c.round.obtained := of_decide_eq_true h
  rw [width, Nat.sub_eq_zero_of_le hquorum, Nat.zero_min]

theorem full_complete (c : Collection) (slot : Nat) (outcome : Except PeerError Attestation) :
    (c.complete slot outcome).Full := by
  unfold complete
  cases outcome with
  | error e => exact full_refill _
  | ok attestation =>
      dsimp only
      split
      · rename_i hquorum
        exact Or.inl (Nat.le_of_eq (width_of_hasQuorum hquorum))
      · exact full_refill _

/-- When nothing is under way, nothing is missing or everybody was asked. -/
theorem Full.finished (h : c.Full) (hfanout : 0 < c.fanout) (hfinished : c.finished = true) :
    c.round.hasQuorum = true ∨ c.waiting = [] := by
  refine h.imp_left fun hwidth => ?_
  rw [List.isEmpty_iff.mp hfinished, List.length_nil, width] at hwidth
  refine decide_eq_true ?_
  omega

/-! ### What an answer leaves -/

/-- Asking further peers moves nobody ahead of others. -/
theorem line_refill (c : Collection) :
    c.refill.inFlight ++ c.refill.waiting = c.inFlight ++ c.waiting := by
  show (c.inFlight ++ c.waiting.take _) ++ c.waiting.drop _ = _
  rw [List.append_assoc, List.take_append_drop]

/-- Whoever is under way or waits after an answer is so in the old order, unless the round has
its quorum. -/
theorem line_complete (c : Collection) {slot : Nat} (hslot : slot < c.inFlight.length)
    (outcome : Except PeerError Attestation) :
    (c.complete slot outcome).round.hasQuorum = true ∨
      (c.complete slot outcome).inFlight ++ (c.complete slot outcome).waiting =
        (c.inFlight ++ c.waiting).eraseIdx slot := by
  rw [List.eraseIdx_append_of_lt_length hslot]
  unfold complete
  cases outcome with
  | error e => exact Or.inr (line_refill _)
  | ok attestation =>
      dsimp only
      split
      · rename_i hquorum
        exact Or.inl hquorum
      · rw [line_refill, record_eq]
        exact Or.inr rfl

/-- An attestation adds its key, if the key is new. -/
theorem mem_keys_record (c : Collection) (attestation : Attestation) (key : MinerKey) :
    key ∈ (c.record attestation).round.keys ↔ attestation.key = key ∨ key ∈ c.round.keys := by
  unfold record
  split
  · rename_i hold
    refine (or_iff_right_of_imp ?_).symm
    rintro rfl
    exact List.contains_iff_mem.mp hold
  · show key ∈ (c.round.attestations ++ [attestation]).map (·.key) ↔ _
    rw [List.map_append, List.mem_append, List.map_singleton, List.mem_singleton, or_comm,
      eq_comm]
    rfl

/-- **An answer adds the key that its entry is willing to attest with.** -/
theorem toFinset_keys_complete (c : Collection) (slot : Nat) (eligible : List MinerKey)
    (payload : Bytes) (r : Respondent) :
    (c.complete slot (r.answers.judge eligible.contains payload)).round.keys.toFinset =
      willing eligible payload [r] ∪ c.round.keys.toFinset := by
  ext key
  rw [Finset.mem_union, List.mem_toFinset, List.mem_toFinset, willing, List.mem_toFinset,
    List.mem_filterMap]
  simp only [List.mem_singleton, exists_eq_left]
  unfold complete Respondent.key?
  cases r.answers.judge eligible.contains payload with
  | error e => simp [refill]
  | ok attestation =>
      have hrecord := mem_keys_record (c.withoutSlot slot) attestation key
      dsimp only
      simp only [Option.some.injEq]
      split
      · exact hrecord
      · exact hrecord

end Collection

/-! ### A round among respondents -/

/-- A round among peers whose answers are settled. -/
structure Poll where
  inquiry : Inquiry
  /-- The entries that have not answered, those under way before those that wait. -/
  left : List Respondent

namespace Poll

/-- Whether the round is over. -/
def finished (poll : Poll) : Bool := poll.inquiry.collection.finished

def start (required fanout : Nat) (respondents : List Respondent) : Poll :=
  ⟨.start required fanout (respondents.map (·.address)), respondents⟩

/-- One of the requests under way is answered, the one that `pick` falls on when they are counted
round and round.  So every order in which requests may be answered is a list of picks. -/
def answer (eligible : List MinerKey) (payload : Bytes) (poll : Poll) (pick : Nat) : Poll :=
  let underWay := poll.inquiry.collection.inFlight.length
  let slot := pick % underWay
  match poll.left[slot]? with
  | some r =>
    if slot < underWay then
      ⟨poll.inquiry.answer eligible payload slot r.answers, poll.left.eraseIdx slot⟩
    else poll
  | none => poll

/-- The round after some answers. -/
def run (eligible : List MinerKey) (payload : Bytes) (poll : Poll) (order : List Nat) : Poll :=
  order.foldl (answer eligible payload) poll

/-- The round about a payload that a state holds among respondents, after some answers. -/
def ofState (s : NodeState) (miner : MinerKey) (p : Params) (respondents : List Respondent)
    (payload : Bytes) (order : List Nat) : Poll :=
  let setup := MinerSetup.ofParams miner (respondents.map (·.address)) p
  (start s.requiredQuorum setup.fanout respondents).run s.chain.miners payload order

/-- What carries the tally of a round among `respondents` from one answer to the next. -/
structure Tallied (eligible : List MinerKey) (payload : Bytes) (required fanout : Nat)
    (respondents : List Respondent) (poll : Poll) : Prop where
  steady : poll.inquiry.Steady required fanout (respondents.map (·.address))
  genuine : poll.inquiry.collection.round.Genuine eligible.contains payload
  full : poll.inquiry.collection.Full
  /-- Who has not answered is under way or waits, in this order, until the quorum is reached. -/
  line : poll.inquiry.collection.round.hasQuorum = true ∨
    poll.inquiry.collection.inFlight ++ poll.inquiry.collection.waiting =
      poll.left.map (·.address)
  /-- No willing key is lost. -/
  tally : poll.inquiry.collection.round.keys.toFinset ∪ willing eligible payload poll.left =
    willing eligible payload respondents

variable {eligible : List MinerKey} {payload : Bytes} {required fanout : Nat}
  {respondents : List Respondent} {poll : Poll}

theorem tallied_start (eligible : List MinerKey) (payload : Bytes) (required fanout : Nat)
    (respondents : List Respondent) :
    (start required fanout respondents).Tallied eligible payload required fanout respondents where
  steady := Inquiry.steady_start required fanout _
  genuine := Collection.genuine_start required fanout _
  full := Collection.full_refill _
  line := Or.inr (List.take_append_drop _ _)
  tally := Finset.empty_union _

/-- While requests are under way the quorum is open, so whoever has not answered stands in line. -/
theorem Tallied.open_line (h : poll.Tallied eligible payload required fanout respondents)
    (hopen : 0 < poll.inquiry.collection.inFlight.length) :
    poll.inquiry.collection.inFlight ++ poll.inquiry.collection.waiting =
      poll.left.map (·.address) := by
  refine h.line.resolve_left fun hquorum => ?_
  have hreached : poll.inquiry.collection.round.required ≤
      poll.inquiry.collection.round.obtained := of_decide_eq_true hquorum
  have hmissing := h.steady.within.missing
  omega

/-- A round that is over stays as it is. -/
theorem answer_of_finished (h : poll.finished = true) (pick : Nat) :
    poll.answer eligible payload pick = poll := by
  unfold answer
  dsimp only
  rw [List.isEmpty_iff_length_eq_zero.mp h]
  split
  · exact if_neg (Nat.not_lt_zero _)
  · rfl

theorem run_of_finished (h : poll.finished = true) (order : List Nat) :
    poll.run eligible payload order = poll := by
  induction order with
  | nil => rfl
  | cons pick rest ih =>
      show (poll.answer eligible payload pick).run eligible payload rest = poll
      rw [answer_of_finished h]
      exact ih

/-- Unless the round is over, an answer is that of some entry. -/
theorem Tallied.answer_cases (h : poll.Tallied eligible payload required fanout respondents)
    (pick : Nat) :
    poll.finished = true ∨
    ∃ slot r, slot < poll.inquiry.collection.inFlight.length ∧ poll.left[slot]? = some r ∧
      poll.answer eligible payload pick =
        ⟨poll.inquiry.answer eligible payload slot r.answers, poll.left.eraseIdx slot⟩ := by
  rcases Nat.eq_zero_or_pos poll.inquiry.collection.inFlight.length with hnone | hopen
  · exact Or.inl (List.isEmpty_iff_length_eq_zero.mpr hnone)
  · have hslot := Nat.mod_lt pick hopen
    have hlength := congrArg List.length (h.open_line hopen)
    rw [List.length_append, List.length_map] at hlength
    have hleft : pick % poll.inquiry.collection.inFlight.length < poll.left.length := by omega
    refine Or.inr ⟨_, _, hslot, List.getElem?_eq_getElem hleft, ?_⟩
    unfold answer
    simp only [List.getElem?_eq_getElem hleft, if_pos hslot]

/-- **Whichever request is answered next, no willing key is lost.** -/
theorem Tallied.answer (h : poll.Tallied eligible payload required fanout respondents)
    (pick : Nat) :
    (poll.answer eligible payload pick).Tallied eligible payload required fanout respondents := by
  rcases h.answer_cases pick with hfinished | ⟨slot, r, hslot, hr, heq⟩
  · rw [answer_of_finished hfinished]
    exact h
  · rw [heq]
    have hline := h.open_line (Nat.zero_lt_of_lt hslot)
    have hcollection : (poll.inquiry.answer eligible payload slot r.answers).collection =
        poll.inquiry.collection.complete slot (r.answers.judge eligible.contains payload) := by
      rw [Inquiry.answer, if_pos hslot]
    refine ⟨h.steady.answer slot r.answers, Inquiry.genuine_answer h.genuine slot r.answers, ?_, ?_,
      ?_⟩
    · rw [hcollection]
      exact Collection.full_complete _ _ _
    · rw [hcollection, ← List.eraseIdx_map, ← hline]
      exact Collection.line_complete _ hslot _
    · -- the key that the round gains is the one that the entry takes out of those left
      show (poll.inquiry.answer eligible payload slot r.answers).collection.round.keys.toFinset ∪
        willing eligible payload (poll.left.eraseIdx slot) = _
      rw [hcollection, Collection.toFinset_keys_complete,
        Finset.union_comm (willing eligible payload [r]), Finset.union_assoc, ← willing_eraseIdx hr]
      exact h.tally

theorem Tallied.run (order : List Nat) :
    ∀ {poll : Poll}, poll.Tallied eligible payload required fanout respondents →
      (poll.run eligible payload order).Tallied eligible payload required fanout respondents := by
  induction order with
  | nil => intro poll h; exact h
  | cons pick rest ih => intro poll h; exact ih (h.answer pick)

/-! ### How a round ends -/

/-- Each pick ends a request, until the round is over. -/
theorem Tallied.finished_or_answered (order : List Nat) :
    ∀ {poll : Poll}, poll.Tallied eligible payload required fanout respondents →
      (poll.run eligible payload order).finished = true ∨
        (poll.run eligible payload order).inquiry.answered =
          poll.inquiry.answered + order.length := by
  induction order with
  | nil => intro poll _; exact Or.inr rfl
  | cons pick rest ih =>
      intro poll h
      rcases h.answer_cases pick with hfinished | ⟨slot, r, hslot, -, heq⟩
      · rw [run_of_finished hfinished]
        exact Or.inl hfinished
      · refine (ih (h.answer pick)).imp_right fun hanswered => ?_
        have hone : (poll.answer eligible payload pick).inquiry.answered =
            poll.inquiry.answered + 1 := by
          rw [heq]
          show (poll.inquiry.answer eligible payload slot r.answers).answered = _
          rw [Inquiry.answer, if_pos hslot]
        show ((poll.answer eligible payload pick).run eligible payload rest).inquiry.answered = _
        rw [hanswered, hone, List.length_cons]
        omega

/-- The round holds one attestation for each of its keys. -/
theorem Tallied.card_keys (h : poll.Tallied eligible payload required fanout respondents) :
    poll.inquiry.collection.round.keys.toFinset.card = poll.inquiry.collection.round.obtained := by
  rw [List.toFinset_card_of_nodup h.genuine.distinct, AttestationRound.keys, List.length_map]
  rfl

/-- When nothing is under way, nothing is missing or everybody has answered. -/
theorem Tallied.over (h : poll.Tallied eligible payload required fanout respondents)
    (hfanout : 0 < fanout) (hfinished : poll.finished = true) :
    poll.inquiry.collection.round.hasQuorum = true ∨ poll.left = [] := by
  rcases h.line with hquorum | hline
  · exact Or.inl hquorum
  · refine (h.full.finished (h.steady.fanout.symm ▸ hfanout) hfinished).imp_right fun hwaiting => ?_
    rw [List.isEmpty_iff.mp hfinished, hwaiting, List.append_nil] at hline
    exact List.map_eq_nil_iff.mp hline.symm

/-- **A round that is over holds as many attestations as it requires or can be had.** -/
theorem Tallied.obtained (h : poll.Tallied eligible payload required fanout respondents)
    (hfanout : 0 < fanout) (hfinished : poll.finished = true) :
    poll.inquiry.collection.round.obtained =
      min required (willing eligible payload respondents).card := by
  have hmissing := h.steady.within.missing
  have hcard := h.card_keys
  have htally := h.tally
  rcases h.over hfanout hfinished with hquorum | hleft
  · -- the round has no more keys than are willing
    have hreached : poll.inquiry.collection.round.required ≤
        poll.inquiry.collection.round.obtained := of_decide_eq_true hquorum
    have hsubset : poll.inquiry.collection.round.keys.toFinset ⊆
        willing eligible payload respondents := htally ▸ Finset.subset_union_left
    have hle := Finset.card_le_card hsubset
    rw [h.steady.quorum] at hmissing hreached
    omega
  · -- the round has every key that is willing
    rw [hleft, willing, List.filterMap_nil, List.toFinset_nil, Finset.union_empty] at htally
    rw [h.steady.quorum] at hmissing
    rw [← htally]
    omega

theorem Tallied.hasQuorum_eq (h : poll.Tallied eligible payload required fanout respondents)
    (hfanout : 0 < fanout) (hfinished : poll.finished = true) :
    poll.inquiry.collection.round.hasQuorum =
      decide (required ≤ (willing eligible payload respondents).card) := by
  rw [AttestationRound.hasQuorum, h.obtained hfanout hfinished, h.steady.quorum]
  exact decide_eq_decide.mpr (by omega)

/-! ### Whatever the order -/

/-- What is settled about the rounds over `respondents`, one for each setting of the parameters
and each order of the answers. -/
structure Settled (eligible : List MinerKey) (payload : Bytes) (required : Nat)
    (respondents : List Respondent) (round : Params → List Nat → Poll) : Prop where
  /-- The willing keys are the eligible ones that attest validly. -/
  who : ∀ key, key ∈ willing eligible payload respondents ↔
    ∃ r ∈ respondents, ∃ signature,
      r.answers.identity = .ok key ∧ key ∈ eligible ∧
        r.answers.verdict = .ok (.attested ⟨signature, key⟩) ∧
        key.verifies payload signature = true
  /-- After as many answers as there are entries the round is over. -/
  ends : ∀ p order, respondents.length ≤ order.length → (round p order).finished = true
  /-- A round that is over holds as many attestations as it requires or can be had. -/
  obtained : ∀ p order, (round p order).finished = true →
    (round p order).inquiry.collection.round.obtained =
      min required (willing eligible payload respondents).card
  /-- It is short exactly when too few keys are willing. -/
  short : ∀ p order, (round p order).finished = true →
    ((round p order).inquiry.collection.round.hasQuorum = false ↔
      (willing eligible payload respondents).card < required)
  /-- Neither the order nor the fan-out has a say in the verdict. -/
  agree : ∀ p order p' order', (round p order).finished = true →
    (round p' order').finished = true →
      (round p order).inquiry.collection.round.hasQuorum =
        (round p' order').inquiry.collection.round.hasQuorum

theorem ofState_tallied (s : NodeState) (miner : MinerKey) (p : Params)
    (respondents : List Respondent) (payload : Bytes) (order : List Nat) :
    (ofState s miner p respondents payload order).Tallied s.chain.miners payload s.requiredQuorum
      (max p.attestationFanout.toNat 1) respondents :=
  (tallied_start s.chain.miners payload s.requiredQuorum _ respondents).run order

/-- **Whatever the order of the answers and the fan-out, a round comes to an end and to the same
verdict.** -/
theorem ofState_settled (s : NodeState) (miner : MinerKey) (respondents : List Respondent)
    (block : Block) :
    Settled s.chain.miners block.payload s.requiredQuorum respondents
      fun p order => ofState s miner p respondents block.payload order := by
  have htallied := fun p => ofState_tallied s miner p respondents block.payload
  have hfanout : ∀ p : Params, 0 < max p.attestationFanout.toNat 1 :=
    fun p => Nat.lt_of_lt_of_le Nat.zero_lt_one (Nat.le_max_right _ _)
  refine ⟨fun _ => mem_willing, ?_, ?_, ?_, ?_⟩
  · intro p order hlength
    rcases (tallied_start s.chain.miners block.payload s.requiredQuorum
      (max p.attestationFanout.toNat 1) respondents).finished_or_answered order with
      hfinished | hanswered
    · exact hfinished
    · refine (htallied p order).steady.ends ?_
      calc (respondents.map (·.address)).length
          = respondents.length := List.length_map _
        _ ≤ order.length := hlength
        _ = 0 + order.length := (Nat.zero_add _).symm
        _ = _ := hanswered.symm
  · exact fun p order hfinished => (htallied p order).obtained (hfanout p) hfinished
  · intro p order hfinished
    rw [(htallied p order).hasQuorum_eq (hfanout p) hfinished, decide_eq_false_iff_not, Nat.not_le]
  · intro p order p' order' hfinished hfinished'
    rw [(htallied p order).hasQuorum_eq (hfanout p) hfinished,
      (htallied p' order').hasQuorum_eq (hfanout p') hfinished']

end Poll

end AttestedLedger
