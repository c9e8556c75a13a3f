/-
An attestation of a candidate is none of the finished block.

Verifiers sign the same kind of bytes before and after the search, so what keeps a signature of
the first set from standing for one of the second is that no round for the first set is about the
payload of the finished block.  Nonce and time need not differ.  What differs is the first set: the
finished block lists a quorum of it, and a block handed to the verifiers for that set lists none of
it or what an earlier round fell short with.

A quorum is that of the chain at the time, and the candidate may be an old one.  `WhileOnTip` takes
care of that: as long as a candidate extends the tip, every round that was held about it asked for
the quorum that is still required, and one whose tip has moved on has another parent than the
finished block.
-/
import AttestedLedger.Proofs.Codec.Scopes
import AttestedLedger.Proofs.Node.Refreshing
import AttestedLedger.Proofs.Node.Rounds

namespace AttestedLedger

namespace Node

variable {node next : Node} {now : UInt64} {during : List NodeEvent} {block : Block}

/-! ### What a round asked for -/

/-- As long as the block extends the tip, this is the quorum. -/
def Asks (node : Node) (block : Block) (required : Nat) : Prop :=
  node.state.WhileOnTip block (required = node.state.requiredQuorum)

theorem Effect.asks {event : NodeEvent} {required : Nat} (heffect : Effect node event next)
    (h : node.Asks block required) (hindexed : node.state.chain.Indexed)
    (hnames : Distinguished next.state.chain.blocks) : next.Asks block required := by
  rcases heffect.ledger with hledger | ⟨reading, rival, -, hok, happend⟩
  · refine h.congr hledger.chain rfl fun hrequired => ?_
    rw [hrequired, NodeState.requiredQuorum, NodeState.requiredQuorum, hledger.rules, hledger.chain]
  · rw [Asks, happend]
    rw [happend] at hnames
    exact h.append hindexed hok hnames _

/-- What is told apart after a run was told apart before. -/
theorem distinguished_of_run (events : List NodeEvent)
    (hnames : Distinguished (node.run events).state.chain.blocks) :
    Distinguished node.state.chain.blocks := by
  rw [blocks_run] at hnames
  exact hnames.mono (List.subset_append_left _ _)

theorem asks_run :
    ∀ (events : List NodeEvent) {node : Node} {required : Nat}, node.state.Sound node.claimed →
      Distinguished (node.run events).state.chain.blocks → node.Asks block required →
        (node.run events).Asks block required := by
  intro events
  induction events with
  | nil => intro node required _ _ h; exact h
  | cons event rest ih =>
      intro node required hsound hnames h
      have heffect := step_effect node event
      exact ih (heffect.sound hsound) hnames
        (heffect.asks h hsound.indexed (distinguished_of_run rest hnames))

/-- A round is held about the candidate, and asks for the quorum. -/
theorem asks_of_holds (hsuited : node.Suited) {event : NodeEvent} {held : HeldRound}
    (hheld : node.holds? event = some held) : node.Asks held.block held.required := by
  cases event with
  | mine action =>
      rw [holds?] at hheld
      cases hattempt : node.attempt with
      | none =>
          rw [hattempt] at hheld
          exact absurd hheld (by simp)
      | some a =>
          rw [hattempt] at hheld
          obtain ⟨purpose, hstage, -, rfl⟩ := Attempt.holds?_eq_some_iff.mp hheld
          exact (hsuited a hattempt (Attempt.result?_eq_none hstage rfl)).congr rfl rfl
            fun _ => rfl
  | _ => exact absurd hheld (by simp [holds?])

/-- **Whatever rounds were held, those about a block that extends the tip asked for the quorum that
is required now.** -/
theorem asks_rounds :
    ∀ (events : List NodeEvent) {node : Node}, node.state.Sound node.claimed → node.Suited →
      Distinguished (node.run events).state.chain.blocks →
        ∀ held ∈ node.rounds events, (node.run events).Asks held.block held.required := by
  intro events
  induction events with
  | nil => intro node _ _ _ held hin; exact absurd hin List.not_mem_nil
  | cons event rest ih =>
      intro node hsound hsuited hnames held hin
      have heffect := step_effect node event
      rcases List.mem_append.mp hin with hfirst | hlater
      · exact asks_run (event :: rest) hsound hnames
          (asks_of_holds hsuited (Option.mem_toList.mp hfirst))
      · exact ih (heffect.sound hsound)
          (heffect.suited hsuited hsound (distinguished_of_run rest hnames)) hnames held hlater

/-- A block that a call returns extends the tip. -/
theorem Returns.onTip {result : Except MiningError Block} (h : node.Returns during result) :
    node.minedBlock? = none → ∀ block, result = .ok block →
      block.previous = (node.run during).state.chain.tipDigest := by
  induction h with
  | done attempt ended =>
      rintro hunfinished block rfl
      rw [(minedBlock?_eq attempt block).mpr ended] at hunfinished
      exact absurd hunfinished (by simp)
  | @goesOn node current event rest result attempt running later ih =>
      intro hunfinished block hresult
      cases hmined : (node.step event).minedBlock? with
      | none => exact ih hmined block hresult
      | some finished =>
          subst hresult
          -- the event is the last one, since the attempt is over
          cases later with
          | goesOn after still =>
              rw [minedBlock?_of_running after still] at hmined
              exact absurd hmined (by simp)
          | done after ended =>
              obtain rfl : finished = block := by
                rw [(minedBlock?_eq after block).mpr ended] at hmined
                exact (Option.some.inj hmined).symm
              obtain ⟨action, a, rfl, hattempt, hrunning, hdone⟩ :=
                (step_effect node event).finishes hunfinished hmined
              obtain ⟨-, round, -, -, honTip, hblock⟩ :=
                (Attempt.step_effect _ _ _ _).finished hrunning hdone
              show finished.previous = (node.step (.mine action)).state.chain.tipDigest
              rw [(sameLedger_mine node action).chain, hblock]
              exact honTip

/-! ### Two payloads -/

/-- No round for the first set was about the bytes that the second set signs. -/
structure Apart (rounds : List HeldRound) (block : Block) : Prop where
  /-- The second set signs the block's payload. -/
  closing : ∃ front closing, rounds = front ++ [closing] ∧ closing.purpose = .closing ∧
    closing.block.payload = block.payload ∧
    ∀ pair ∈ block.verifiers.zip block.signatures,
      pair.1.verifies closing.block.payload pair.2 = true
  payload : ∀ held ∈ rounds, held.purpose ≠ .closing → held.block.payload ≠ block.payload
  /-- A signature that stands for both is valid for two payloads. -/
  unreplayed : ∀ held ∈ rounds, held.purpose ≠ .closing → ∀ (key : MinerKey) signature,
    key.verifies held.block.payload signature = true →
      key.verifies block.payload signature = true →
        ∃ payload other, payload ≠ other ∧ key.verifies payload signature = true ∧
          key.verifies other signature = true

/-- Rounds that asked for one and the same quorum, as far as they were about blocks with the parent
of the finished block, keep the payloads apart. -/
theorem apart_of_attests {rounds : List HeldRound} {quorum : Nat}
    (h : Attempt.Attests rounds (.ok block))
    (haddressable : ∀ held ∈ rounds, held.block.Addressable) (hquorum : 1 ≤ quorum)
    (hrequired : ∀ held ∈ rounds, held.block.previous = block.previous → held.required = quorum) :
    Apart rounds block := by
  obtain ⟨front, held, closing, pre, post, rfl, hseals, -⟩ := h.sealed block rfl
  have hpayload : closing.block.payload = block.payload := by
    rw [hseals.finished, Block.payload_withPostSet]
  have hlisted := hseals.required_le
  rw [hrequired held (by simp) hseals.previous_eq] at hlisted
  have hapart : ∀ round ∈ front ++ [held, closing], round.purpose ≠ .closing →
      round.block.payload ≠ block.payload := by
    intro round hin hfirst hsame
    have hagree := (Block.encodeIn_eq_iff (haddressable round hin)
      (haddressable closing (by simp))).mp (hsame.trans hpayload.symm)
    have hsets : round.block.preVerifiers = block.preVerifiers := by
      rw [hagree.preVerifiers, hseals.finished]
      rfl
    have hparent : round.block.previous = block.previous := by
      rw [hagree.previous, hseals.finished]
      rfl
    rw [← hsets] at hlisted
    rcases h.short hin hfirst with hnone | ⟨earlier, hearlier, hprevious, hfewer⟩
    · rw [hnone, List.length_nil] at hlisted
      omega
    · rw [hrequired earlier hearlier (hprevious.trans hparent)] at hfewer
      omega
  refine ⟨⟨front ++ [held], closing, by simp, hseals.last, hpayload, ?_⟩, hapart, ?_⟩
  · obtain ⟨miners, hgenuine⟩ := hseals.postYields.genuine
    rw [hseals.finished]
    exact hgenuine.verified_zip
  · intro round hin hfirst key signature hpre hpost
    exact ⟨_, _, hapart round hin hfirst, hpre, hpost⟩

/-- A call begins with nothing finished. -/
theorem Calls.unfinished {result : Except MiningError Block} (h : node.Calls now during result) :
    (node.step (.begin now)).minedBlock? = none := by
  cases hmined : (node.step (.begin now)).minedBlock? with
  | none => rfl
  | some block =>
      obtain ⟨action, -, hevent, -⟩ :=
        (step_effect node (.begin now)).finishes (minedBlock?_of_mayBegin h.may) hmined
      exact absurd hevent (by simp)

/-- **No attestation from before the search stands for one of the finished block**, whatever peers
answer and whatever happens meanwhile, where a quorum is required and the digests of the chain's
blocks tell them apart. -/
theorem pre_apart_post (identity : Identity) (peers : List Address) (p : Params) (s : NodeState)
    (archive : Option Archive) (before : List NodeEvent)
    (hstart : s = .start p ∨ ∃ saved : Archive, saved.load p = .ok (some s))
    (h : ((ofState identity peers p s archive).run before).Calls now during (.ok block))
    (hquorum : 1 ≤ (((ofState identity peers p s archive).run before).run
      (.begin now :: during)).state.requiredQuorum)
    (hnames : Distinguished (((ofState identity peers p s archive).run before).run
      (.begin now :: during)).state.chain.blocks)
    (haddressable : ∀ held ∈
      ((ofState identity peers p s archive).run before).callRounds now during, held.block.Addressable) :
    Apart (((ofState identity peers p s archive).run before).callRounds now during) block := by
  have horigin : (ofState identity peers p s archive).state.Sound
      (ofState identity peers p s archive).claimed := NodeState.sound_of_origin hstart
  have hsuited : ((ofState identity peers p s archive).run before).Suited :=
    suited_run rfl horigin before (distinguished_of_run (.begin now :: during) hnames)
  have hsound := sound_run before horigin
  generalize (ofState identity peers p s archive).run before = node at *
  have hbegun := step_effect node (.begin now)
  have hasks := asks_rounds during (hbegun.sound hsound)
    (hbegun.suited hsuited hsound (distinguished_of_run during hnames)) hnames
  have honTip := h.returns.onTip h.unfinished block rfl
  obtain ⟨hturn, ended, hended, hrecounts⟩ := h.inTurn
  exact apart_of_attests (hturn.attests hended hrecounts) haddressable hquorum
    fun held hin hprevious => (hasks held hin).onTip (hprevious.trans honTip)

theorem sameLedger_paired : pairedState.SameLedger paired.state := by
  rw [paired_eq]
  exact NodeState.sameLedger_submit _ _

theorem sameLedger_after_paired : pairedState.SameLedger
    (paired.run (.begin 8 :: recoveringEvents preAttestation postAttestation .zero 9)).state := by
  rw [recoveringEvents_eq, ← List.map_singleton, ← List.map_append]
  exact sameLedger_paired.trans (sameLedger_call paired 8 _)

/-- Blocks within the limits of the format are told apart by distinct digests. -/
theorem distinguished_of_nodup {blocks : List Block}
    (hwithin : ∀ block ∈ blocks, block.WithinLimits)
    (hdistinct : (blocks.map (·.digest)).Nodup) : Distinguished blocks where
  wordSized := fun block hin => (hwithin block hin).addressable.toWordSized
  collisionFree := fun _ hin _ hother hsame =>
    congrArg Block.encode (List.inj_on_of_nodup_map hdistinct hin hother hsame)

theorem distinguished_pairedState : Distinguished pairedState.chain.blocks := by
  rw [blocks_pairedState]
  refine distinguished_of_nodup (by decide) ?_
  show [Block.genesis.digest, (rivalBy verifierKey).digest].Nodup
  rw [digest_genesis, digest_rivalBy]
  decide

theorem addressable_paired :
    ∀ held ∈ paired.callRounds 8 (recoveringEvents preAttestation postAttestation .zero 9),
      held.block.Addressable := by
  rw [callRounds, course_paired.rounds, recoveringRounds]
  simp only [List.forall_mem_cons]
  refine ⟨Block.WithinLimits.addressable ?_, Block.WithinLimits.addressable ?_,
    Block.WithinLimits.addressable ?_, fun _ hin => absurd hin List.not_mem_nil⟩
  all_goals decide +kernel

theorem pre_apart_post_paired :
    paired.Calls 8 (recoveringEvents preAttestation postAttestation .zero 9) (.ok pairedBlock) ∧
      Apart (paired.callRounds 8 (recoveringEvents preAttestation postAttestation .zero 9))
        pairedBlock := by
  have hledger := sameLedger_after_paired
  have hquorum : 1 ≤ (paired.run (.begin 8 ::
      recoveringEvents preAttestation postAttestation .zero 9)).state.requiredQuorum := by
    rw [NodeState.requiredQuorum, hledger.rules, hledger.chain]
    decide
  have hnames : Distinguished (paired.run (.begin 8 ::
      recoveringEvents preAttestation postAttestation .zero 9)).state.chain.blocks := by
    rw [hledger.chain]
    exact distinguished_pairedState
  exact ⟨calls_paired, pre_apart_post ⟨1, by decide, by decide⟩ [neighbour] .easiest
    (.start .easiest) none [.offer 7 (rivalBy verifierKey), .submit payment]
    (Or.inl rfl) calls_paired hquorum hnames addressable_paired⟩

end Node

end AttestedLedger
