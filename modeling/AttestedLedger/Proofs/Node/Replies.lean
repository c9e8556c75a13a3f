/-
Every reply fits a frame.

A reply carries little: a key, a signature, or a reason.  Reasons are the only part whose
length is not fixed, since they show what was wrong with a request: the key of a verifier, a
number of verifiers, a piece of a command.  Each of these is bounded by the limits of the
format or by what a word can count, so a reason never comes near the longest field that a
frame may carry, and the peer reads every reply back.
-/
import AttestedLedger.Node.Serving
import AttestedLedger.Proofs.Codec.Faults
import AttestedLedger.Proofs.Codec.Framing
import AttestedLedger.Proofs.Ledger.Eligibility

namespace AttestedLedger

/-! ### Keys and signatures -/

theorem Identity.length_minerKey (identity : Identity) :
    identity.minerKey.bytes.length = 33 := by
  unfold minerKey
  -- the point is generalized, or the kernel computes it
  generalize (Secp256k1.scale identity.secret Secp256k1.generator).toAffine = point?
  cases point? with
  | none => rfl
  | some point => exact congrArg Nat.succ (Bytes.length_bigEndian 32 point.x)

theorem Identity.length_sign (identity : Identity) (payload : Bytes) :
    (identity.sign payload).bytes.length = 64 := by
  show (Ecdsa.encodeScalars _).length = 64
  rw [Ecdsa.encodeScalars, List.length_append, Bytes.length_bigEndian, Bytes.length_bigEndian]

/-! ### Why a block is rejected -/

namespace Rejection

/-- Nothing in the reason is longer than a key may be or larger than a word. -/
def Modest : Rejection → Prop
  | quorumShortfall _ obtained required => obtained < 2 ^ 64 ∧ required < 2 ^ 64
  | ineligibleVerifier _ key | invalidAttestation key => key.bytes.length ≤ maxKeyBytes
  | _ => True

theorem length_title_le (set : VerifierSet) : set.title.length ≤ 11 := by
  cases set <;> exact (by decide)

theorem length_toString_digest (digest : Digest) : (toString digest).length = 64 := by
  show (Hex.encode digest.bytes).length = 64
  rw [Hex.length_encode, digest.length_eq]

theorem length_toString_key {key : MinerKey} (h : key.bytes.length ≤ maxKeyBytes) :
    (toString key).length ≤ 512 := by
  show (Hex.encode key.bytes).length ≤ 512
  rw [Hex.length_encode]
  exact Nat.mul_le_mul_left 2 h

/-- **The text of a modest rejection is short.** -/
theorem Modest.length_message_le {reason : Rejection} (h : reason.Modest) :
    reason.message.length ≤ 600 := by
  unfold message
  cases reason with
  | staleTip tip found =>
      have htip := length_toString_digest tip
      have hfound := length_toString_digest found
      dsimp only
      simp only [String.length_append]
      show 14 + _ + 17 + _ ≤ 600
      omega
  | noTransactions => exact (by decide : 25 ≤ 600)
  | unexpectedDifficulty expected found =>
      have hexpected := length_toString_uint64 expected
      have hfound := length_toString_uint64 found
      dsimp only
      simp only [String.length_append]
      show 17 + _ + 35 + _ ≤ 600
      omega
  | invalidWork => exact (by decide : 21 ≤ 600)
  | invalidTimestamp => exact (by decide : 17 ≤ 600)
  | duplicateTransaction tx =>
      have htx := length_toString_digest tx
      dsimp only
      simp only [String.length_append]
      show 12 + _ + 27 ≤ 600
      omega
  | alreadyFinalized tx =>
      have htx := length_toString_digest tx
      dsimp only
      simp only [String.length_append]
      show 12 + _ + 21 ≤ 600
      omega
  | quorumShortfall set obtained required =>
      have hset := length_title_le set
      have hobtained := length_toString_nat h.1
      have hrequired := length_toString_nat h.2
      dsimp only
      simp only [String.length_append]
      show set.title.length + 12 + _ + 4 + _ + 9 ≤ 600
      omega
  | unpairedSignatures set =>
      have hset := length_title_le set
      dsimp only
      simp only [String.length_append]
      show set.title.length + 37 ≤ 600
      omega
  | duplicateVerifier set =>
      have hset := length_title_le set
      dsimp only
      simp only [String.length_append]
      show set.title.length + 22 ≤ 600
      omega
  | ineligibleVerifier set key =>
      have hset := length_title_le set
      have hkey := length_toString_key h
      dsimp only
      simp only [String.length_append]
      show set.title.length + 10 + _ + 25 ≤ 600
      omega
  | invalidAttestation key =>
      have hkey := length_toString_key h
      dsimp only
      simp only [String.length_append]
      show 15 + _ + 16 ≤ 600
      omega

end Rejection

/-! ### What a check can blame -/

namespace Rules

/-- If the check fails, the reason is modest. -/
def Blames (result : Except Rejection Unit) : Prop :=
  ∀ reason, result = .error reason → reason.Modest

theorem blames_ok : Blames (.ok ()) := fun _ h => absurd h (by simp)

theorem blames_error {reason : Rejection} (h : reason.Modest) : Blames (.error reason) :=
  fun _ heq => Except.error.inj heq ▸ h

/-- A refusal in front of other checks. -/
theorem blames_refuse {c : Prop} {_ : Decidable c} {reason : Rejection}
    {next : PUnit → Except Rejection Unit} (h : reason.Modest) (hnext : Blames (next ⟨⟩)) :
    Blames (if c then (throw reason : Except Rejection PUnit) >>= next else next ⟨⟩) := by
  by_cases hc : c
  · rw [if_pos hc]
    exact blames_error h
  · rw [if_neg hc]
    exact hnext

theorem blames_both {first : Except Rejection Unit} {next : Unit → Except Rejection Unit}
    (hfirst : Blames first) (hnext : Blames (next ())) : Blames (first >>= next) := by
  cases first with
  | error reason => exact blames_error (hfirst reason rfl)
  | ok _ => exact hnext

theorem blames_checkTimestamp (rules : Rules) (chain : Chain) (timestamp now : UInt64) :
    Blames (rules.checkTimestamp chain timestamp now) := by
  unfold checkTimestamp
  split
  · exact blames_error trivial
  split
  · exact blames_error trivial
  · exact blames_ok

theorem blames_checkTransactions (chain : Chain) :
    ∀ (transactions : List Transaction) (seen : List Digest),
      Blames (checkTransactions chain seen transactions) := by
  intro transactions
  induction transactions with
  | nil => intro seen; exact blames_ok
  | cons tx rest ih =>
      intro seen
      simp only [checkTransactions]
      split
      · exact blames_error trivial
      split
      · exact blames_error trivial
      · exact ih _

theorem blames_checkVerifiers (chain : Chain) (set : VerifierSet) :
    ∀ (keys seen : List MinerKey), (∀ key ∈ keys, key.bytes.length ≤ maxKeyBytes) →
      Blames (checkVerifiers chain set seen keys) := by
  intro keys
  induction keys with
  | nil => intro seen _; exact blames_ok
  | cons key rest ih =>
      intro seen h
      simp only [checkVerifiers]
      split
      · exact blames_error trivial
      split
      · exact blames_error (h key List.mem_cons_self)
      · exact ih _ fun k hk => h k (List.mem_cons_of_mem key hk)

theorem blames_checkSet (chain : Chain) (set : VerifierSet) {keys : List MinerKey}
    (signatures : List Signature) {required : Nat}
    (hkeys : Block.ListWithinLimits MinerKey.bytes keys) (hrequired : required < 2 ^ 64) :
    Blames (checkSet chain set keys signatures required) := by
  unfold checkSet
  split
  · exact blames_error trivial
  split
  · exact blames_error ⟨Nat.lt_of_le_of_lt hkeys.1 (by decide), hrequired⟩
  · exact blames_checkVerifiers chain set keys [] hkeys.2

theorem blames_checkSignatures (payload : Bytes) :
    ∀ pairs : List (MinerKey × Signature),
      (∀ pair ∈ pairs, pair.1.bytes.length ≤ maxKeyBytes) →
      Blames (checkSignatures payload pairs) := by
  intro pairs
  induction pairs with
  | nil => intro _; exact blames_ok
  | cons pair rest ih =>
      obtain ⟨key, signature⟩ := pair
      intro h
      rw [checkSignatures]
      split
      · exact ih fun p hp => h p (List.mem_cons_of_mem _ hp)
      · exact blames_error (h (key, signature) List.mem_cons_self)

/-- **A block that the format can carry is rejected for a modest reason**, on a chain whose miners
a word can count. -/
theorem blames_check (rules : Rules) {chain : Chain} (now : UInt64) {block : Block}
    (h : block.WithinLimits) (hminers : chain.miners.length < 2 ^ 64) :
    Blames (rules.check chain now block) := by
  have hrequired := Nat.lt_of_le_of_lt (rules.requiredQuorum_le chain) hminers
  unfold check
  refine blames_refuse trivial ?_
  refine blames_refuse trivial ?_
  refine blames_refuse trivial ?_
  refine blames_refuse trivial ?_
  refine blames_both (blames_checkTimestamp rules chain _ now) ?_
  refine blames_both (blames_checkTransactions chain _ _) ?_
  refine blames_both (blames_checkSet chain _ _ h.preVerifiers hrequired) ?_
  refine blames_both (blames_checkSet chain _ _ h.verifiers hrequired) ?_
  refine blames_checkSignatures _ _ fun pair hpair => ?_
  exact h.verifiers.2 pair.1 (List.of_mem_zip hpair).1

end Rules

/-! ### Replies -/

namespace Message

/-- A reason of so many characters fits a field however many bytes they take. -/
theorem withinLimits_reject {reason : String} (h : reason.length ≤ 1024) :
    (reject reason).WithinLimits := by
  have hfield : (Utf8.encode reason).length ≤ maxField :=
    Nat.le_trans (Utf8.length_encode_le reason) (Nat.mul_le_mul_left 4 h)
  have hpayload := Prefixed.length_encode_le (Nat.le_trans hfield (by decide))
  refine ⟨hfield, Nat.le_trans hpayload ?_⟩
  exact Nat.le_trans (Nat.add_le_add_left hfield 3) (by decide)

/-- A key or a signature of the usual length, behind that length. -/
theorem length_encode_field_le {bytes : Bytes} {length : Nat} (h : bytes.length = length)
    (hshort : length ≤ 64) : (Prefixed.encode bytes).length ≤ 3 + 64 :=
  Nat.le_trans (Prefixed.length_encode_le (by omega)) (by omega)

theorem withinLimits_identity (identity : Identity) :
    (Message.identity identity.minerKey).WithinLimits := by
  have hkey := identity.length_minerKey
  have hpayload := length_encode_field_le hkey (by decide)
  refine ⟨Nat.le_trans (Nat.le_of_eq hkey) (by decide), Nat.le_trans hpayload (by decide)⟩

theorem withinLimits_attested (identity : Identity) (payload : Bytes) :
    (attested ⟨identity.sign payload, identity.minerKey⟩).WithinLimits := by
  have hkey := identity.length_minerKey
  have hsignature := identity.length_sign payload
  refine ⟨⟨Nat.le_trans (Nat.le_of_eq hsignature) (by decide),
    Nat.le_trans (Nat.le_of_eq hkey) (by decide)⟩, ?_⟩
  rw [Message.payload, List.length_append]
  exact Nat.le_trans (Nat.add_le_add (length_encode_field_le hsignature (by decide))
    (length_encode_field_le hkey (by decide))) (by decide)

theorem kind_of_ofEmpty {m other : Message} {payload : Bytes} (h : ofEmpty other payload = .ok m) :
    m.kind = other.kind := by
  unfold ofEmpty at h
  split at h
  · rw [Except.ok.inj h]
  · exact absurd h (by simp)

theorem kind_of_map {α : Type} {make : α → Message} {parsed : Except CodecError α} {m : Message}
    {kind : MessageKind} (hmake : ∀ x, (make x).kind = kind) (h : parsed.map make = .ok m) :
    m.kind = kind := by
  cases parsed with
  | error e => exact absurd h (by simp [Except.map])
  | ok x => exact Except.ok.inj h ▸ hmake x

/-- A payload gives messages of the kind that was announced for it. -/
theorem kind_of_ofPayload {kind : MessageKind} {payload : Bytes} {m : Message}
    (h : ofPayload kind payload = .ok m) : m.kind = kind := by
  cases kind with
  | identify => exact kind_of_ofEmpty h
  | declined => exact kind_of_ofEmpty h
  | ack => exact kind_of_ofEmpty h
  | attested => exact (exactCodec_attestation.limited payload m h).1
  | identity => exact kind_of_map (fun _ => rfl) h
  | reject => exact kind_of_map (fun _ => rfl) h
  | verifyTime => exact kind_of_map (fun _ => rfl) h
  | block => exact kind_of_map (fun _ => rfl) h
  | transaction => exact kind_of_map (fun _ => rfl) h

/-- A frame of a block holds a block that the format can carry. -/
theorem IsFrame.withinLimits_block {frame : Bytes} {b : Block} (h : IsFrame frame (.block b)) :
    b.WithinLimits := by
  obtain ⟨header, payload, kind, -, -, -, hpayload⟩ := h
  obtain rfl : MessageKind.block = kind := kind_of_ofPayload hpayload
  exact Block.exactCodec.limited payload b ((map_eq_ok_iff fun _ _ => block.inj).mp hpayload)

end Message

namespace Node

theorem withinLimits_refusal {e : CodecError} (h : e.Modest) : (refusal e).WithinLimits := by
  have hmessage := h.length_message_le
  refine Message.withinLimits_reject ?_
  rw [String.length_append]
  show 17 + e.message.length ≤ 1024
  omega

theorem length_title_kind_le (kind : MessageKind) : kind.title.length ≤ 12 := by
  cases kind <;> exact (by decide)

theorem withinLimits_unexpected (kind : MessageKind) :
    (Message.reject s!"unexpected {kind.title}").WithinLimits := by
  have htitle := length_title_kind_le kind
  refine Message.withinLimits_reject ?_
  rw [String.length_append]
  show 11 + kind.title.length ≤ 1024
  omega

theorem modest_of_acceptBlock {s : NodeState} {now : UInt64} {b : Block} {reason : Rejection}
    (h : s.acceptBlock now b = .error reason) (hb : b.WithinLimits)
    (hminers : s.chain.miners.length < 2 ^ 64) : reason.Modest := by
  refine Rules.blames_check s.rules now hb hminers reason ?_
  unfold NodeState.acceptBlock at h
  cases hcheck : s.rules.check s.chain now b with
  | error e =>
      rw [hcheck] at h
      exact congrArg _ (Except.error.inj h)
  | ok _ =>
      rw [hcheck] at h
      exact absurd h (by simp)

/-- **Every request that the format can carry is answered with a message that it can carry.** -/
theorem withinLimits_reply (node : Node) (now : UInt64) {request : Message}
    (hrequest : ∀ b, request = .block b → b.WithinLimits)
    (hminers : node.state.chain.miners.length < 2 ^ 64) :
    (node.handle now request).2.reply.WithinLimits := by
  cases request with
  | identify => exact Message.withinLimits_identity node.identity
  | verifyTime b =>
      simp only [handle, NodeState.attest]
      by_cases hplausible : node.state.reviewsTimestamp b now = true
      · rw [if_pos hplausible]
        exact Message.withinLimits_attested node.identity b.payload
      · rw [if_neg hplausible]
        exact (by decide : Message.declined.WithinLimits)
  | transaction tx =>
      have hack : Message.ack.WithinLimits := by decide
      simp only [handle]
      split <;> exact hack
  | block b =>
      simp only [handle]
      cases haccept : node.state.acceptBlock now b with
      | ok s => exact (by decide : Message.ack.WithinLimits)
      | error reason =>
          have hmessage :=
            (modest_of_acceptBlock haccept (hrequest b rfl) hminers).length_message_le
          exact Message.withinLimits_reject (Nat.le_trans hmessage (by decide))
  | identity key => exact withinLimits_unexpected .identity
  | attested a => exact withinLimits_unexpected .attested
  | declined => exact withinLimits_unexpected .declined
  | ack => exact withinLimits_unexpected .ack
  | reject reason => exact withinLimits_unexpected .reject

end Node

end AttestedLedger
