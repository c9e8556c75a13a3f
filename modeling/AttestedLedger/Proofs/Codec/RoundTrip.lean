/-
Transactions and blocks survive the wire.

A block is within the limits of the format when every key and signature, every list and the
time of the search is no larger than the decoder will take.  `codec_exact` says that these
limits are exactly those of the round trip, for blocks and for transactions, and what
becomes of bytes that are cut off or go on.

The decoder reads the fields in the order in which they were written, so both directions
follow the decoder line by line: `reads_encode` for what it takes, `yields_limits` for what
it gives.
-/
import AttestedLedger.Proofs.Codec.Spelling

namespace AttestedLedger

/-! ### Times -/

/-- A time that a 64-bit count holds is read back. -/
theorem Duration.ofNanos64_toNanos64 {d : Duration} (h : d.nanos ≤ UInt64.size - 1) :
    ofNanos64 d.toNanos64 = d := by
  obtain ⟨nanos, inRange⟩ := d
  simp only at h
  have hvalue : (toNanos64 ⟨nanos, inRange⟩).toNat = nanos := by
    rw [toNanos64, UInt64.toNat_ofNat', Nat.min_eq_left h, Nat.mod_eq_of_lt (by
      simp only [UInt64.size] at h
      omega)]
  simp only [ofNanos64, hvalue]

theorem Duration.nanos_ofNanos64_le (nanos : UInt64) :
    (ofNanos64 nanos).nanos ≤ UInt64.size - 1 :=
  Nat.le_sub_one_of_lt nanos.toNat_lt

/-! ### Transactions -/

theorem MinerKey.length_zero_le : zero.bytes.length ≤ maxKeyBytes := by decide

namespace Transaction

/-- A transaction that the format can carry. -/
structure WithinLimits (tx : Transaction) : Prop where
  sender : tx.sender.bytes.length ≤ maxKeyBytes
  recipient : tx.recipient.bytes.length ≤ maxKeyBytes

instance (tx : Transaction) : Decidable tx.WithinLimits :=
  decidable_of_iff (tx.sender.bytes.length ≤ maxKeyBytes ∧ tx.recipient.bytes.length ≤ maxKeyBytes)
    ⟨fun h => ⟨h.1, h.2⟩, fun h => ⟨h.sender, h.recipient⟩⟩

/-- A transfer from nobody to nobody always fits. -/
theorem withinLimits_zero (amount timestamp : UInt64) :
    (⟨.zero, .zero, amount, timestamp⟩ : Transaction).WithinLimits :=
  ⟨MinerKey.length_zero_le, MinerKey.length_zero_le⟩

end Transaction

/-- A length within a limit of the format fits a word. -/
theorem Prefixed.spelling_key {bytes : Bytes} (h : bytes.length ≤ maxKeyBytes) :
    Spelling bytes (encode bytes) :=
  spelling_encode (Nat.lt_of_le_of_lt h (by decide))

namespace Transaction

theorem spelling_encode {tx : Transaction} (h : tx.WithinLimits) : tx.Spelling tx.encode := by
  rw [encode]
  simp only [List.append_assoc]
  exact .intro (Prefixed.spelling_key h.sender) (Prefixed.spelling_key h.recipient)

/-- **Any spelling of a transaction is read as it.** -/
theorem Spelling.reads {tx : Transaction} {bytes : Bytes} (h : tx.Spelling bytes)
    (hlimits : tx.WithinLimits) : decoder.Reads bytes tx := by
  cases h with
  | intro hsender hrecipient =>
      refine (hsender.reads hlimits.sender).bind ?_
      refine (hrecipient.reads hlimits.recipient).bind ?_
      refine (Decoder.reads_word64 tx.amount).bind ?_
      exact (Decoder.reads_word64 tx.timestamp).map _

theorem reads_encode {tx : Transaction} (h : tx.WithinLimits) : decoder.Reads tx.encode tx :=
  (spelling_encode h).reads h

theorem yields_limits : decoder.Yields WithinLimits := by
  refine Decoder.Yields.bind (Prefixed.yields_decode _) fun sender hsender => ?_
  refine Decoder.Yields.bind (Prefixed.yields_decode _) fun recipient hrecipient => ?_
  refine Decoder.Yields.bind (Decoder.yields_any _) fun amount _ => ?_
  refine Decoder.Yields.bind (Decoder.yields_any _) fun timestamp _ => ?_
  exact Decoder.yields_pure ⟨hsender, hrecipient⟩

theorem exactCodec : ExactCodec WithinLimits encode decode :=
  Decoder.exactCodec (fun _ => reads_encode) yields_limits

end Transaction

/-! ### Blocks -/

namespace Block

/-- A list of keys or signatures that the format can carry. -/
def ListWithinLimits {α : Type} (bytes : α → Bytes) (items : List α) : Prop :=
  items.length ≤ maxListLength ∧ ∀ x ∈ items, (bytes x).length ≤ maxKeyBytes

/-- A block that the format can carry. -/
structure WithinLimits (block : Block) : Prop where
  miner : block.miner.bytes.length ≤ maxKeyBytes
  transactions : block.transactions.length ≤ maxListLength
  eachTransaction : ∀ tx ∈ block.transactions, tx.WithinLimits
  miningTime : block.miningTime.nanos ≤ UInt64.size - 1
  preVerifiers : ListWithinLimits MinerKey.bytes block.preVerifiers
  preSignatures : ListWithinLimits Signature.bytes block.preSignatures
  verifiers : ListWithinLimits MinerKey.bytes block.verifiers
  signatures : ListWithinLimits Signature.bytes block.signatures

instance {α : Type} (bytes : α → Bytes) (items : List α) :
    Decidable (ListWithinLimits bytes items) :=
  inferInstanceAs (Decidable (_ ∧ _))

instance (block : Block) : Decidable block.WithinLimits :=
  decidable_of_iff (block.miner.bytes.length ≤ maxKeyBytes ∧
      block.transactions.length ≤ maxListLength ∧ (∀ tx ∈ block.transactions, tx.WithinLimits) ∧
      block.miningTime.nanos ≤ UInt64.size - 1 ∧
      ListWithinLimits MinerKey.bytes block.preVerifiers ∧
      ListWithinLimits Signature.bytes block.preSignatures ∧
      ListWithinLimits MinerKey.bytes block.verifiers ∧
      ListWithinLimits Signature.bytes block.signatures)
    ⟨fun ⟨h₁, h₂, h₃, h₄, h₅, h₆, h₇, h₈⟩ => ⟨h₁, h₂, h₃, h₄, h₅, h₆, h₇, h₈⟩,
      fun h => ⟨h.miner, h.transactions, h.eachTransaction, h.miningTime, h.preVerifiers,
        h.preSignatures, h.verifiers, h.signatures⟩⟩

theorem withinLimits_genesis : genesis.WithinLimits := by decide

theorem reads_digest (digest : Digest) : digestDecoder.Reads digest.bytes digest where
  whole := by
    intro rest
    rw [digestDecoder, Bytes.splitExact_append digest.length_eq]
    dsimp only
    rw [dif_pos digest.length_eq]
  cutOff := by
    intro front hfront hne
    have hshort := Bytes.length_lt_of_cutOff hfront hne
    rw [digest.length_eq] at hshort
    rw [digestDecoder, Bytes.splitExact_eq_none_iff.mpr hshort]

/-- Keys and signatures are read alike: `make` is how either is made of its bytes. -/
theorem reads_list {α : Type} {bytes : α → Bytes} {make : Bytes → α}
    (hmake : ∀ x, make (bytes x) = x) {items : List α} {spelling : Bytes}
    (h : Prefixed.ListSpelling (fun x => Prefixed.Spelling (bytes x)) items spelling)
    (hlimits : ListWithinLimits bytes items) : (listDecoder make).Reads spelling items := by
  have hread : (Prefixed.decodeList maxListLength maxKeyBytes).Reads spelling
      (items.map bytes) := by
    refine (h.map fun _ _ hkey => hkey).reads ?_ fun key hkey front hfront => ?_
    · rw [List.length_map]
      exact hlimits.1
    · obtain ⟨x, hx, rfl⟩ := List.mem_map.mp hkey
      exact hfront.reads (hlimits.2 x hx)
  have hmapped := hread.map (List.map make)
  rwa [List.map_map, show make ∘ bytes = id from funext hmake, List.map_id] at hmapped

theorem yields_list {α : Type} {bytes : α → Bytes} {make : Bytes → α}
    (hmake : ∀ key, bytes (make key) = key) :
    (listDecoder make).Yields (ListWithinLimits bytes) := by
  refine Decoder.Yields.bind (Prefixed.yields_decodeMany (Prefixed.yields_decode _) _) ?_
  intro keys hkeys
  refine Decoder.yields_pure ⟨?_, fun x hx => ?_⟩
  · rw [List.length_map]
    exact hkeys.1
  · obtain ⟨key, hkey, rfl⟩ := List.mem_map.mp hx
    rw [hmake]
    exact hkeys.2 key hkey

theorem spelling_list {α : Type} {bytes : α → Bytes} {items : List α}
    (h : ListWithinLimits bytes items) :
    Prefixed.ListSpelling (fun x => Prefixed.Spelling (bytes x)) items
      (Prefixed.encodeMany (fun x => Prefixed.encode (bytes x)) items) :=
  Prefixed.spelling_encodeMany (Nat.lt_of_le_of_lt h.1 (by decide))
    fun x hx => Prefixed.spelling_key (h.2 x hx)

theorem spelling_transactions {block : Block} (h : block.WithinLimits) :
    Prefixed.ListSpelling Transaction.Spelling block.transactions
      (Prefixed.encodeMany Transaction.encode block.transactions) :=
  Prefixed.spelling_encodeMany (Nat.lt_of_le_of_lt h.transactions (by decide))
    fun tx htx => Transaction.spelling_encode (h.eachTransaction tx htx)

theorem spelling_encode {block : Block} (h : block.WithinLimits) : block.Spelling block.encode :=
  .intro (Prefixed.spelling_key h.miner) (spelling_transactions h) (spelling_list h.preVerifiers)
    (spelling_list h.preSignatures) (spelling_list h.verifiers) (spelling_list h.signatures)

/-- **Any spelling of a block is read as it.** -/
theorem Spelling.reads {block : Block} {bytes : Bytes} (h : block.Spelling bytes)
    (hlimits : block.WithinLimits) : decoder.Reads bytes block := by
  cases h with
  | intro hminer htransactions hpreVerifiers hpreSignatures hverifiers hsignatures =>
      refine (hminer.reads hlimits.miner).bind ?_
      refine (htransactions.reads hlimits.transactions fun tx htx _ hfront =>
        hfront.reads (hlimits.eachTransaction tx htx)).bind ?_
      refine (Decoder.reads_word64 block.nonce).bind ?_
      refine (Decoder.reads_word64 block.difficulty).bind ?_
      refine (Decoder.reads_word64 block.timestamp).bind ?_
      refine (reads_digest block.previous).bind ?_
      refine (Decoder.reads_word64 block.miningTime.toNanos64).bind ?_
      refine (reads_list (fun _ => rfl) hpreVerifiers hlimits.preVerifiers).bind ?_
      refine (reads_list (fun _ => rfl) hpreSignatures hlimits.preSignatures).bind ?_
      refine (reads_list (fun _ => rfl) hverifiers hlimits.verifiers).bind ?_
      have hfinal : (listDecoder Signature.mk).Reads _ block.signatures :=
        reads_list (fun _ => rfl) hsignatures hlimits.signatures
      have hlast := hfinal.map fun signatures =>
        { block with miningTime := .ofNanos64 block.miningTime.toNanos64, signatures }
      rwa [Duration.ofNanos64_toNanos64 hlimits.miningTime] at hlast ⊢

theorem reads_encode {block : Block} (h : block.WithinLimits) :
    decoder.Reads block.encode block :=
  (spelling_encode h).reads h

theorem yields_limits : decoder.Yields WithinLimits := by
  refine Decoder.Yields.bind (Prefixed.yields_decode _) fun miner hminer => ?_
  refine Decoder.Yields.bind (Prefixed.yields_decodeMany Transaction.yields_limits _)
    fun transactions htransactions => ?_
  refine Decoder.Yields.bind (Decoder.yields_any _) fun nonce _ => ?_
  refine Decoder.Yields.bind (Decoder.yields_any _) fun difficulty _ => ?_
  refine Decoder.Yields.bind (Decoder.yields_any _) fun timestamp _ => ?_
  refine Decoder.Yields.bind (Decoder.yields_any _) fun previous _ => ?_
  refine Decoder.Yields.bind (Decoder.yields_any _) fun miningTime _ => ?_
  have hkeys : (listDecoder MinerKey.mk).Yields (ListWithinLimits MinerKey.bytes) :=
    yields_list fun _ => rfl
  have hsigns : (listDecoder Signature.mk).Yields (ListWithinLimits Signature.bytes) :=
    yields_list fun _ => rfl
  refine Decoder.Yields.bind hkeys fun preVerifiers hpreVerifiers => ?_
  refine Decoder.Yields.bind hsigns fun preSignatures hpreSignatures => ?_
  refine Decoder.Yields.bind hkeys fun verifiers hverifiers => ?_
  refine Decoder.Yields.bind hsigns fun signatures hsignatures => ?_
  exact Decoder.yields_pure ⟨hminer, htransactions.1, htransactions.2,
    Duration.nanos_ofNanos64_le miningTime, hpreVerifiers, hpreSignatures, hverifiers, hsignatures⟩

theorem exactCodec : ExactCodec WithinLimits encode decode :=
  Decoder.exactCodec (fun _ => reads_encode) yields_limits

/-- **Blocks and transactions are read back exactly when they are within the limits of the
format.** -/
theorem codec_exact :
    ExactCodec WithinLimits encode decode ∧
      ExactCodec Transaction.WithinLimits Transaction.encode Transaction.decode :=
  ⟨exactCodec, Transaction.exactCodec⟩

end Block

end AttestedLedger
