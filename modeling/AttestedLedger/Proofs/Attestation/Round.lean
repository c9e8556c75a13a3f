/-
What a round of attestations holds.

`AttestationRound.Genuine` says that the keys of a round are distinct and eligible and that
every signature verifies over the payload.  Peers answer what they like, in any order:
`judge` lets nothing else through, so every round in progress is genuine.  A genuine round
that reached its quorum is a verifier set that the chain admits.
-/
import AttestedLedger.Attestation.Round
import AttestedLedger.Proofs.Ledger.Acceptance
import AttestedLedger.Proofs.Ledger.Indexes

namespace AttestedLedger

/-- A peer's answers amount to an attestation exactly when it names an eligible key and then
attests with that key and a signature that verifies. -/
theorem PeerAnswers.judge_eq_ok_iff {answers : PeerAnswers} {eligible : MinerKey → Bool}
    {payload : Bytes} {attestation : Attestation} :
    answers.judge eligible payload = .ok attestation ↔
      answers.identity = .ok attestation.key ∧ eligible attestation.key = true ∧
        answers.verdict = .ok (.attested attestation) ∧
        attestation.key.verifies payload attestation.signature = true := by
  obtain ⟨identity, verdict⟩ := answers
  cases identity with
  | error e => simp [judge]
  | ok key =>
      cases verdict with
      | error e => by_cases hkey : eligible key = true <;> simp [judge, hkey]
      | ok verdict =>
          cases verdict with
          | declined => by_cases hkey : eligible key = true <;> simp [judge, hkey]
          | attested given =>
              by_cases hkey : eligible key = true
              · by_cases hclaims : given.key = key ∧ key.verifies payload given.signature = true
                · simp only [judge, hkey, if_true, if_pos hclaims]
                  obtain ⟨rfl, hverifies⟩ := hclaims
                  grind
                · simp only [judge, hkey, if_true, if_neg hclaims]
                  grind
              · simp only [judge, hkey]
                grind

namespace AttestationRound

/-- Distinct eligible keys with signatures that verify over the payload. -/
structure Genuine (round : AttestationRound) (eligible : MinerKey → Bool) (payload : Bytes) :
    Prop where
  distinct : round.keys.Nodup
  eligible : ∀ attestation ∈ round.attestations, eligible attestation.key = true
  verified : ∀ attestation ∈ round.attestations,
    attestation.key.verifies payload attestation.signature = true

variable {round : AttestationRound} {eligible : MinerKey → Bool} {payload : Bytes}

theorem genuine_empty (required : Nat) : Genuine ⟨required, []⟩ eligible payload where
  distinct := List.nodup_nil
  eligible := fun _ h => absurd h List.not_mem_nil
  verified := fun _ h => absurd h List.not_mem_nil

/-- One more attestation by a key that has not attested. -/
theorem Genuine.push (h : round.Genuine eligible payload) {attestation : Attestation}
    (hnew : attestation.key ∉ round.keys) (heligible : eligible attestation.key = true)
    (hverified : attestation.key.verifies payload attestation.signature = true) :
    Genuine { round with attestations := round.attestations ++ [attestation] } eligible
      payload where
  distinct := by
    show ((round.attestations ++ [attestation]).map (·.key)).Nodup
    rw [List.map_append, List.map_singleton]
    refine List.nodup_append.mpr ⟨h.distinct, List.nodup_singleton _, ?_⟩
    rintro a ha b hb rfl
    rw [List.mem_singleton] at hb
    exact hnew (hb ▸ ha)
  eligible := by
    intro other hother
    rcases List.mem_append.mp hother with hold | hsame
    · exact h.eligible other hold
    · rw [List.mem_singleton.mp hsame]
      exact heligible
  verified := by
    intro other hother
    rcases List.mem_append.mp hother with hold | hsame
    · exact h.verified other hold
    · rw [List.mem_singleton.mp hsame]
      exact hverified

theorem zip_keys_signatures (round : AttestationRound) :
    round.keys.zip round.signatures = round.attestations.map fun a => (a.key, a.signature) := by
  rw [keys, signatures, List.zip_map']

theorem Genuine.verified_zip (h : round.Genuine eligible payload) :
    ∀ pair ∈ round.keys.zip round.signatures, pair.1.verifies payload pair.2 = true := by
  intro pair hpair
  rw [zip_keys_signatures] at hpair
  obtain ⟨attestation, hin, rfl⟩ := List.mem_map.mp hpair
  exact h.verified attestation hin

/-- **A genuine round of the chain's miners that reached its quorum is admitted by the chain.** -/
theorem Genuine.admits {chain : Chain} (h : round.Genuine chain.miners.contains payload)
    (hindexed : chain.Indexed) (hquorum : round.hasQuorum = true) :
    chain.Admits round.required round.keys round.signatures where
  paired := by rw [keys, signatures, List.length_map, List.length_map]
  quorum := by
    rw [keys, List.length_map]
    exact of_decide_eq_true hquorum
  distinct := h.distinct
  eligible := by
    intro key hkey
    obtain ⟨attestation, hin, rfl⟩ := List.mem_map.mp hkey
    have hminer := h.eligible attestation hin
    rw [List.contains_iff_mem, hindexed.mem_miners] at hminer
    rw [hindexed.isNewMiner_eq_false_iff, List.take_of_length_le]
    · exact hminer
    · rw [Chain.length_blocks]

end AttestationRound

/-! ### Rounds in progress -/

namespace Collection

variable {c : Collection} {eligible : MinerKey → Bool} {payload : Bytes}

/-- A round that requires nothing asks nobody. -/
theorem start_zero (fanout : Nat) (peers : List Address) :
    start 0 fanout peers = ⟨⟨0, []⟩, fanout, peers, []⟩ := by
  simp [start, refill, width]

/-- So does one that has nobody to ask. -/
theorem start_nil (required fanout : Nat) :
    start required fanout [] = ⟨⟨required, []⟩, fanout, [], []⟩ := by
  simp [start, refill]

/-- One that has a single peer to ask and requires somebody asks that peer. -/
theorem start_singleton {required fanout : Nat} (hrequired : 0 < required) (hfanout : 0 < fanout)
    (peer : Address) :
    start required fanout [peer] = ⟨⟨required, []⟩, fanout, [], [peer]⟩ := by
  have hroom : min required fanout ≠ 0 := by omega
  obtain ⟨room, hroom⟩ := Nat.exists_eq_succ_of_ne_zero hroom
  simp [start, refill, width, AttestationRound.obtained, hroom]

/-- The answer ends the round. -/
theorem complete_singleton (required fanout : Nat) (peer : Address)
    (outcome : Except PeerError Attestation) :
    (complete ⟨⟨required, []⟩, fanout, [], [peer]⟩ 0 outcome) =
      ⟨⟨required, outcome.toOption.toList⟩, fanout, [], []⟩ := by
  cases outcome with
  | error e => simp [complete, refill, Except.toOption]
  | ok attestation =>
      simp [complete, record, refill, AttestationRound.keys, Except.toOption]

theorem required_record (c : Collection) (attestation : Attestation) :
    (c.record attestation).round.required = c.round.required := by
  rw [record]
  split <;> rfl

/-- What a round requires never changes. -/
theorem required_complete (c : Collection) (slot : Nat) (outcome : Except PeerError Attestation) :
    (c.complete slot outcome).round.required = c.round.required := by
  unfold complete
  split
  · rfl
  · dsimp only
    split
    · exact required_record _ _
    · exact required_record _ _

theorem genuine_start (required fanout : Nat) (peers : List Address) :
    (start required fanout peers).round.Genuine eligible payload :=
  AttestationRound.genuine_empty required

theorem genuine_record (h : c.round.Genuine eligible payload) {attestation : Attestation}
    (heligible : eligible attestation.key = true)
    (hverified : attestation.key.verifies payload attestation.signature = true) :
    (c.record attestation).round.Genuine eligible payload := by
  rw [record]
  split
  · exact h
  · rename_i hnew
    rw [List.contains_iff_mem] at hnew
    exact h.push hnew heligible hverified

/-- **Whatever a peer answers, the round stays genuine.** -/
theorem genuine_complete (h : c.round.Genuine eligible payload) (slot : Nat)
    (answers : PeerAnswers) :
    (c.complete slot (answers.judge eligible payload)).round.Genuine eligible payload := by
  unfold complete
  split
  · exact h
  · rename_i attestation hjudge
    obtain ⟨-, heligible, -, hverified⟩ := PeerAnswers.judge_eq_ok_iff.mp hjudge
    have hrecorded := genuine_record (c := { c with inFlight := c.inFlight.eraseIdx slot }) h
      heligible hverified
    dsimp only
    split
    · exact hrecorded
    · exact hrecorded

end Collection

end AttestedLedger
