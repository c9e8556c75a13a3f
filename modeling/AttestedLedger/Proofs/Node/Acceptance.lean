/-
A node accepts every block it mines.

`Delivers` lists what is known of a block when an attempt has finished it: the chain takes it as
long as no other block came in between, it extends the tip of its time, its first set was complete
before its nonce was found, and what makes it acceptable was there before it was finished.  The
work is done by `OnTrack` and `SealedDuring`, one of which looks ahead to the reading of the clock
at which the block is judged and the other back to the search.

The run that shows the result at work takes every turn there is on the way to a block.  A node asks
its only peer, which is out of reach at first, and the nonce found meanwhile is spent on asking
again.  When both sets are at hand the node is overtaken by the block of a third miner, which the
same peer has attested, and so it goes through all of it once more on that block.
-/
import AttestedLedger.Proofs.Node.Replay

namespace AttestedLedger

namespace Node

/-! ### A call that is overtaken -/

/-- The peer's signature over the third miner's candidate. -/
def rivalPreAttestation : Attestation where
  key := verifierKey
  signature :=
    ⟨[230, 79, 157, 190, 26, 255, 157, 85, 245, 55, 47, 162, 162, 190, 136, 10, 102, 151, 32, 238,
      40, 83, 33, 138, 213, 153, 215, 40, 198, 173, 220, 139, 72, 135, 71, 121, 147, 160, 162, 254,
      32, 41, 39, 82, 100, 68, 237, 23, 195, 173, 124, 183, 89, 245, 147, 190, 15, 154, 108, 243,
      98, 121, 155, 74]⟩

/-- Its signature over the block that came of it. -/
def rivalPostAttestation : Attestation where
  key := verifierKey
  signature :=
    ⟨[156, 191, 217, 172, 184, 59, 100, 232, 41, 36, 131, 81, 101, 157, 163, 138, 24, 65, 123,
      114, 31, 81, 59, 77, 218, 243, 128, 240, 124, 68, 246, 71, 6, 26, 37, 54, 87, 98, 202, 50, 21,
      193, 47, 125, 152, 0, 87, 69, 74, 196, 197, 198, 101, 70, 173, 162, 76, 109, 228, 48, 109,
      228, 127, 238]⟩

/-- The block of the third miner, with both of its sets. -/
def overtaking : Block :=
  Attempt.withPostSet (Attempt.withPreSet laterRival ⟨1, [rivalPreAttestation]⟩)
    ⟨1, [rivalPostAttestation]⟩

def overtakingDigest : Digest :=
  ⟨[19, 89, 56, 95, 1, 179, 43, 160, 245, 156, 43, 168, 102, 209, 167, 0, 18, 186, 179, 167, 108,
    58, 197, 61, 41, 246, 164, 231, 11, 250, 250, 127], rfl⟩

theorem digest_overtaking : overtaking.digest = overtakingDigest := by
  decide +kernel

/-- It holds neither what the node is given nor what the chain holds already. -/
theorem overtaking_fresh :
    ∀ tx ∈ overtaking.transactions, tx.digest ≠ payment.digest ∧
      tx.digest ∉ (rivalBy verifierKey).transactions.map (·.digest) := by
  decide +kernel

theorem acceptable_overtaking :
    pairedState.rules.Acceptable pairedState.chain 7 overtaking := by
  have heligible : pairedState.chain.isNewMiner verifierKey pairedState.chain.height = false := by
    decide
  have hset : ∀ signature, pairedState.chain.Admits
      (pairedState.rules.requiredQuorum pairedState.chain) [verifierKey] [signature] :=
    fun _ => ⟨rfl, Nat.le_of_eq quorum_pairedState, List.nodup_singleton _,
      List.forall_mem_singleton.mpr heligible⟩
  refine ⟨tipDigest_pairedState.symm, List.cons_ne_nil _ _, ?_, Target.admits_one _, ?_,
    Nat.zero_le _, List.nodup_singleton _, fun tx htx => ?_, hset _, hset _, ?_⟩
  · decide
  · decide
  · rw [Bool.eq_false_iff]
    intro hfinal
    have hrecorded := (sound_pairedState.indexed.finalized tx.digest).mp hfinal
    rw [blocks_pairedState, recorded_append, recorded_singleton, recorded_singleton] at hrecorded
    exact hrecorded.elim List.not_mem_nil (overtaking_fresh tx htx).2
  · decide +kernel

/-- The peer's signature over the candidate that is built anew. -/
def anewPreAttestation : Attestation where
  key := verifierKey
  signature :=
    ⟨[27, 219, 219, 225, 186, 26, 220, 83, 252, 41, 103, 236, 159, 140, 141, 112, 199, 121, 120,
      163, 74, 231, 190, 82, 249, 137, 13, 139, 216, 190, 167, 206, 73, 123, 31, 62, 19, 192, 139,
      126, 202, 239, 35, 115, 147, 17, 35, 155, 231, 142, 128, 225, 166, 235, 75, 218, 117, 77, 20,
      200, 4, 79, 77, 0]⟩

/-- Its signature over that of the block whose nonce was found. -/
def anewPostAttestation : Attestation where
  key := verifierKey
  signature :=
    ⟨[179, 132, 142, 107, 110, 8, 95, 205, 251, 65, 77, 212, 12, 148, 163, 40, 229, 138, 97, 180,
      98, 121, 117, 121, 197, 8, 250, 73, 184, 84, 221, 225, 37, 124, 247, 56, 241, 56, 90, 80, 130,
      255, 141, 47, 199, 243, 167, 22, 137, 64, 184, 226, 58, 219, 155, 168, 62, 23, 142, 20, 136,
      175, 105, 144]⟩

/-- The block that comes of it. -/
def anewBlock : Block :=
  Attempt.withPostSet { Attempt.withPreSet (candidateOn overtakingDigest)
    ⟨1, [anewPreAttestation]⟩ with miningTime := .zero } ⟨1, [anewPostAttestation]⟩

/-- What happens during the call before the block is finished. -/
def overtakenCall : List NodeEvent :=
  (verifyingSteps preAttestation postAttestation .zero).map .mine ++
    .offer 7 overtaking ::
      (.proceed 8 :: verifyingSteps anewPreAttestation anewPostAttestation .zero).map .mine

/-- The state on which the node begins anew. -/
def overtakenState : NodeState := pairedState.append overtaking

theorem blocks_overtakenState :
    overtakenState.chain.blocks = [.genesis, rivalBy verifierKey, overtaking] := by
  show (pairedState.chain.push overtaking).blocks = _
  rw [Chain.blocks_push, blocks_pairedState]
  rfl

theorem tipDigest_overtakenState : overtakenState.chain.tipDigest = overtakingDigest := by
  rw [overtakenState, NodeState.append, Chain.push, digest_overtaking]

/-- What the node was given still waits after that block. -/
theorem pending_overtaken {s : NodeState} (horderly : s.pool.Orderly)
    (hpending : s.pool.pending = [payment]) :
    (s.append overtaking).pool.pending = [payment] := by
  refine horderly.pending_finalize_singleton hpending fun hin => ?_
  obtain ⟨tx, htx, hsame⟩ := List.mem_map.mp hin
  exact (overtaking_fresh tx htx).1 hsame

/-- What is built anew on that block. -/
theorem freshCandidate_overtaken {s : NodeState} (hledger : overtakenState.SameLedger s)
    (hpending : s.pool.pending = [payment]) :
    s.freshCandidate (candidateOn rivalDigest).miner 8 = candidateOn overtakingDigest := by
  have hminer : ∀ tip, (candidateOn tip).miner = Identity.minerKey ⟨1, by decide, by decide⟩ := by
    intro tip
    rw [candidateOn, Block.candidate]
  have hdifficulty : overtakenState.rules.nextDifficulty overtakenState.chain = 1 := by
    decide
  have htime : max 8 overtakenState.chain.tip.timestamp = 8 := by
    decide
  rw [NodeState.freshCandidate, hpending, NodeState.nextDifficulty, hledger.chain, hledger.rules,
    hdifficulty, htime, tipDigest_overtakenState, hminer, candidateOn]

/-- The call from where the candidate has been built anew. -/
theorem course_anew {t : NodeState} {anew : Attempt} (hledger : overtakenState.SameLedger t)
    (hstage : anew.stage = .calling .opening)
    (hcandidate : anew.candidate = candidateOn overtakingDigest) :
    (paired.trying t anew).Course
      (recoveringEvents anewPreAttestation anewPostAttestation .zero 9)
      (recoveringRounds (candidateOn overtakingDigest) anewPreAttestation .zero)
      (.ok anewBlock) := by
  have heligible : t.chain.miners.contains verifierKey = true := by
    rw [hledger.chain]
    decide
  rw [anewBlock, ← hcandidate]
  refine course_recovering hstage (setup_paired ▸ asksOne_ofParams _ _ _) ?_ ?_ ?_ heligible ?_
    heligible ?_ 9
  · rw [NodeState.requiredQuorum, hledger.rules, hledger.chain]
    decide
  · rw [hledger.chain, hcandidate]
    exact tipDigest_overtakenState
  · rw [hcandidate]
    exact Target.admits_one
  · rw [hcandidate]
    decide +kernel
  · rw [hcandidate]
    decide +kernel

/-- **The whole call**: a round that falls short and is repeated, a second set, a rival block, and
all of it again on that block. -/
theorem course_overtaken :
    (paired.step (.begin 8)).Course (overtakenCall ++ [.mine (.proceed 9)])
      (recoveringRounds (candidateOn rivalDigest) preAttestation .zero ++
        recoveringRounds (candidateOn overtakingDigest) anewPreAttestation .zero)
      (.ok anewBlock) := by
  obtain ⟨s, a, hbegun, hsame, hsound, hpending, hstage, hcandidate⟩ := begun_paired
  have hone : AsksOne paired.setup neighbour := setup_paired ▸ asksOne_ofParams _ _ _
  have hquorum : s.requiredQuorum = 1 := by
    rw [NodeState.requiredQuorum, hsame.rules, hsame.chain]
    exact quorum_pairedState
  have heligible : s.chain.miners.contains verifierKey = true := by
    rw [hsame.chain]
    exact eligible_pairedState
  have hok : s.rules.Acceptable s.chain 7 overtaking := by
    rw [hsame.rules, hsame.chain]
    exact acceptable_overtaking
  have hledger : overtakenState.SameLedger (s.append overtaking) := hsame.append overtaking
  have hwaiting := pending_overtaken hsound.tidy.orderly hpending
  rw [hbegun, overtakenCall, List.append_assoc, List.cons_append, List.map_cons, List.cons_append,
    ← recoveringEvents_eq, ← hcandidate]
  refine Course.verifying (fun settling hsettling hsettled => ?_) hstage hone hquorum
    (hcandidate ▸ Target.admits_one) heligible (hcandidate ▸ verifies_preAttestation) heligible
    (hcandidate ▸ verifies_postAttestation)
  rw [hcandidate] at hsettled
  refine Course.offered ?_ (Attempt.result?_eq_none hsettling rfl) hok
  refine Course.rebuilt (fun t anew hkept hopening hanew => ?_) hsettling ?_ ?_ ?_
  · have hminer : settling.candidate.miner = (candidateOn rivalDigest).miner := by
      rw [hsettled, Attempt.withPreSet]
    rw [hminer, freshCandidate_overtaken hledger hwaiting] at hanew
    exact course_anew (hledger.trans hkept) hopening hanew
  · rw [hsettled]
    exact hsound.append hok
  · rw [hledger.chain, tipDigest_overtakenState, hsettled]
    decide
  · rw [hwaiting]
    exact List.cons_ne_nil _ _

/-- Nothing but the third miner's block has entered the chain at the end. -/
theorem sameLedger_overtaken : overtakenState.SameLedger
    (paired.run (.begin 8 :: (overtakenCall ++ [.mine (.proceed 9)]))).state := by
  have hbefore := sameLedger_paired.trans
    (sameLedger_call paired 8 (verifyingSteps preAttestation postAttestation .zero))
  rw [overtakenCall, List.append_assoc, List.cons_append, ← List.map_singleton, ← List.map_append,
    ← List.cons_append, run_append]
  generalize paired.run (.begin 8 ::
    (verifyingSteps preAttestation postAttestation .zero).map .mine) = asked at hbefore ⊢
  have haccept : asked.state.acceptBlock 7 overtaking = .ok (asked.state.append overtaking) := by
    refine NodeState.acceptBlock_eq_ok_iff.mpr ⟨?_, rfl⟩
    rw [hbefore.rules, hbefore.chain]
    exact acceptable_overtaking
  show overtakenState.SameLedger ((asked.step (.offer 7 overtaking)).run _).state
  rw [step_offer haccept]
  exact (hbefore.append overtaking).trans
    (sameLedger_run_mine _ { asked with state := asked.state.append overtaking })

theorem distinguished_overtakenState : Distinguished overtakenState.chain.blocks := by
  rw [blocks_overtakenState]
  refine distinguished_of_nodup (by decide) ?_
  show [Block.genesis.digest, (rivalBy verifierKey).digest, overtaking.digest].Nodup
  rw [digest_genesis, digest_rivalBy, digest_overtaking]
  decide

/-! ### The result -/

/-- What is known of a block that `event` finished, after further events that left the chain
alone. -/
structure Delivers (origin : Node) (before : List NodeEvent) (event : NodeEvent)
    (later : List NodeEvent) (now : UInt64) (block : Block) : Prop where
  accepted : ∃ s, (origin.run (before ++ event :: later)).state.acceptBlock now block = .ok s
  /-- When it was finished, the block extended the tip. -/
  onTip : block.previous = (origin.run before).state.chain.tip.digest
  /-- The first set is admitted by that chain, and was complete before the nonce was found. -/
  preSet : (origin.run before).state.chain.Admits (origin.run before).state.requiredQuorum
    block.preVerifiers block.preSignatures
  sealed : SealedDuring origin before block
  /-- The finished block has the work and the signatures that were made before it was. -/
  work : block.hasWork = true
  attested : ∀ pair ∈ block.verifiers.zip block.signatures,
    pair.1.verifies block.payload pair.2 = true

/-- **A node accepts every block it mines**, if no other block came in between, the clock has not
run backwards, and the digests of the chain's blocks tell them apart. -/
theorem mined_block_accepted (identity : Identity) (peers : List Address) (p : Params)
    (archive : Option Archive) {before later : List NodeEvent} {event : NodeEvent} {now : UInt64}
    {block : Block}
    (hunfinished : ((fresh identity peers p archive).run before).minedBlock? = none)
    (hfinished : ((fresh identity peers p archive).run (before ++ [event])).minedBlock? =
      some block)
    (hquiet : ((fresh identity peers p archive).run (before ++ event :: later)).state.chain =
      ((fresh identity peers p archive).run (before ++ [event])).state.chain)
    (hclock : ∀ e ∈ before ++ [event], ∀ reading, e.reading? = some reading → reading ≤ now)
    (hnames : Distinguished
      ((fresh identity peers p archive).run (before ++ [event])).state.chain.blocks) :
    (fresh identity peers p archive).Delivers before event later now block := by
  have hsound := sound_run_fresh identity peers p archive before
  have hsealed := sealed_run (show (fresh identity peers p archive).attempt = none from rfl) before
  have hrules : ∀ events, ((fresh identity peers p archive).run events).state.rules = .ofParams p :=
    fun events => (lawful_run events (NodeState.lawful_start p)).rules
  have heffect := step_effect ((fresh identity peers p archive).run before) event
  rw [run_concat] at hfinished hquiet hnames
  have honTrack := onTrack_run identity peers p archive before
    (fun e he => hclock e (List.mem_append_left _ he)) (hnames.mono heffect.blocks_grow.subset)
  obtain ⟨mined, a, rfl, hattempt, hrunning, hdone⟩ := heffect.finishes hunfinished hfinished
  have hok := (honTrack.ready a hattempt).acceptable hrunning hsound.indexed hdone
  obtain ⟨-, round, hstage, -, -, rfl⟩ := (Attempt.step_effect _ _ _ _).finished hrunning hdone
  refine ⟨⟨_, NodeState.acceptBlock_eq_ok_iff.mpr ⟨?_, rfl⟩⟩, hok.onTip.trans hsound.indexed.tip,
    hok.preSet, ?_, hok.work, hok.attested⟩
  · -- neither finishing the block nor what came later has changed the chain
    have hsame := (sameLedger_mine ((fresh identity peers p archive).run before) mined).chain
    rw [hquiet, hsame, hrules, ← hrules before]
    exact hok
  · exact ((hsealed a hattempt).1 (by rw [hstage]; rfl)).congr
      ⟨Block.sealedBytes_withPostSet a.candidate round, rfl, rfl⟩

/-- A node whose peer has mined a block is overtaken by a third miner and begins anew. -/
theorem mined_block_accepted_overtaken :
    (fresh ⟨1, by decide, by decide⟩ [neighbour] .easiest none).Delivers
      ([.offer 7 (rivalBy verifierKey), .submit payment] ++ .begin 8 :: overtakenCall)
      (.mine (.proceed 9)) [.submit ⟨.zero, .zero, 9, 10⟩] 9 anewBlock := by
  have hrun : ∀ events, (fresh ⟨1, by decide, by decide⟩ [neighbour] .easiest none).run
      ([.offer 7 (rivalBy verifierKey), .submit payment] ++ events) = paired.run events := by
    intro events
    rw [paired, run_append]
  have hlater : ∀ (node : Node) (before : List NodeEvent) (event : NodeEvent) (tx : Transaction),
      (node.run (before ++ event :: [.submit tx])).state.chain =
        (node.run (before ++ [event])).state.chain := by
    intro node before event tx
    rw [List.append_cons, run_concat]
    exact (NodeState.sameLedger_submit _ tx).chain
  obtain ⟨hunfinished, hfinished⟩ := course_overtaken.returns.last
  refine mined_block_accepted _ _ _ _ ?_ ?_ ?_ ?_ ?_
  · rw [hrun, run_cons]
    exact hunfinished
  · rw [List.append_assoc, hrun, List.cons_append, run_cons]
    exact hfinished
  · exact hlater _ _ _ _
  · simp [overtakenCall, verifyingSteps, NodeEvent.reading?]
  · rw [List.append_assoc, hrun, List.cons_append, sameLedger_overtaken.chain]
    exact distinguished_overtakenState

end Node

end AttestedLedger
