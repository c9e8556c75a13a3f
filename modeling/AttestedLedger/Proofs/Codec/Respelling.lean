/-
Which bytes are read as a block.

Writing a block and reading it gives the block again, but reading bytes and writing what was
read need not give the bytes: the reader takes a length in any form that holds it.
`SpelledCodec` says of an input exactly which value it is taken for, namely the one that it
spells, and how the written spelling stands out: it is the shortest, the others are all
longer, and there always are others.

The decoders are followed line by line once more, `Decoder.Consumes` saying of each what it
took from the input.  `respelled_genesis` gives a second spelling of the first block, and of
a transaction, byte by byte.
-/
import AttestedLedger.Proofs.Codec.RoundTrip

namespace AttestedLedger

/-- What a reader of whole strings makes of `input` if it takes the spellings of the values within
some limits, and nothing else. -/
structure SpelledCodec {α : Type} (limits : α → Prop) (encode : α → Bytes)
    (spelled : α → Bytes → Prop) (decode : Bytes → Except CodecError α) (input : Bytes) : Prop where
  taken : ∀ x, decode input = .ok x ↔ limits x ∧ spelled x input
  /-- Writing what was read gives the input exactly when the input was not longer. -/
  canonical : ∀ x, decode input = .ok x →
    (encode x = input ↔ input.length ≤ (encode x).length)
  /-- What was read is read from another string too. -/
  others : ∀ x, decode input = .ok x → ∃ other, other ≠ input ∧ decode other = .ok x

/-- A decoder that reads the spellings of values and consumes nothing else. -/
theorem Decoder.spelledCodec {α : Type} {decoder : Decoder α} {limits : α → Prop}
    {encode : α → Bytes} {spelled : α → Bytes → Prop}
    (hreads : ∀ x bytes, spelled x bytes → limits x → decoder.Reads bytes x)
    (hconsumes : decoder.Consumes spelled) (hyields : decoder.Yields limits)
    (hwritten : ∀ x, limits x → spelled x (encode x))
    (hshortest : ∀ x bytes, spelled x bytes → WrittenOrLonger (encode x) bytes)
    (hothers : ∀ x, limits x → ∃ bytes, (encode x).length < bytes.length ∧ spelled x bytes)
    (input : Bytes) : SpelledCodec limits encode spelled decoder.complete input := by
  have htaken : ∀ input x, decoder.complete input = .ok x ↔ limits x ∧ spelled x input := by
    intro input x
    constructor
    · intro hok
      unfold complete at hok
      split at hok
      · exact absurd hok (by simp)
      · rename_i value hread
        obtain rfl := Except.ok.inj hok
        obtain ⟨front, hfront, hinput⟩ := hconsumes input value [] hread
        rw [List.append_nil] at hinput
        exact ⟨hyields input value [] hread, hinput ▸ hfront⟩
      · exact absurd hok (by simp)
    · rintro ⟨hlimits, hspelled⟩
      have hread := (hreads x input hspelled hlimits).whole []
      rw [List.append_nil] at hread
      rw [complete, hread]
  refine ⟨htaken input, fun x hok => ⟨fun h => h ▸ Nat.le_refl _, fun hlength => ?_⟩,
    fun x hok => ?_⟩
  · rcases hshortest x input ((htaken input x).mp hok).2 with hsame | hlonger
    · exact hsame.symm
    · omega
  · have hlimits := ((htaken input x).mp hok).1
    by_cases hsame : encode x = input
    · obtain ⟨bytes, hlonger, hspelled⟩ := hothers x hlimits
      refine ⟨bytes, ?_, (htaken bytes x).mpr ⟨hlimits, hspelled⟩⟩
      rintro rfl
      rw [hsame] at hlonger
      exact Nat.lt_irrefl _ hlonger
    · exact ⟨encode x, hsame, (htaken (encode x) x).mpr ⟨hlimits, hwritten x hlimits⟩⟩

/-- The widest form of a length that has a narrower one. -/
theorem Prefixed.spelling_widest {bytes : Bytes} (h : bytes.length ≤ 0xffffffff) :
    ∃ spelling, (encode bytes).length < spelling.length ∧ Spelling bytes spelling := by
  have hword : bytes.length < 256 ^ 8 := Nat.lt_of_le_of_lt h (by decide)
  refine ⟨0xff :: Bytes.littleEndian 8 bytes.length ++ bytes, ?_, .intro (.eight hword)⟩
  have hnarrow : (Varint.encode bytes.length).length < 9 := by
    unfold Varint.encode
    rw [if_pos h]
    split
    · simp
    split
    · simp
    · simp
  simp only [encode, List.length_append, List.length_cons, Bytes.length_littleEndian]
  omega

/-! ### Transactions -/

namespace Transaction

theorem consumes_decoder : decoder.Consumes Spelling := by
  refine (Prefixed.consumes_decode _).bind fun sender _ hsender => ?_
  refine (Prefixed.consumes_decode _).bind fun recipient _ hrecipient => ?_
  refine Decoder.consumes_word64.bind fun amount _ hamount => ?_
  refine Decoder.consumes_word64.bind fun timestamp _ htimestamp => ?_
  subst hamount htimestamp
  refine Decoder.consumes_pure ?_
  rw [List.append_nil]
  exact .intro hsender hrecipient

theorem spelledCodec (input : Bytes) :
    SpelledCodec WithinLimits encode Spelling decode input := by
  refine Decoder.spelledCodec (fun _ _ => Spelling.reads) consumes_decoder yields_limits
    (fun _ => spelling_encode) (fun _ _ => Spelling.writtenOrLonger) (fun tx h => ?_) input
  obtain ⟨sender, hlonger, hsender⟩ :=
    Prefixed.spelling_widest (Nat.le_trans h.sender (by decide : maxKeyBytes ≤ 0xffffffff))
  refine ⟨_, ?_, .intro hsender (Prefixed.spelling_key h.recipient)⟩
  simp only [encode, List.length_append, Bytes.length_littleEndian]
  omega

end Transaction

/-! ### Blocks -/

namespace Block

theorem consumes_digest : digestDecoder.Consumes fun digest front => front = digest.bytes := by
  intro input digest rest hok
  unfold digestDecoder at hok
  split at hok
  · rename_i front left hsplit
    obtain ⟨hlength, hinput⟩ := Bytes.splitExact_eq_some_iff.mp hsplit
    rw [dif_pos hlength] at hok
    obtain ⟨rfl, rfl⟩ := Prod.mk.inj (Except.ok.inj hok)
    exact ⟨front, rfl, hinput⟩
  · exact absurd hok (by simp)

theorem consumes_list {α : Type} {bytes : α → Bytes} {make : Bytes → α}
    (hmake : ∀ key, bytes (make key) = key) :
    (listDecoder make).Consumes (Prefixed.ListSpelling fun x => Prefixed.Spelling (bytes x)) := by
  refine (Prefixed.consumes_decodeMany (Prefixed.consumes_decode _) _).bind fun keys row hrow => ?_
  refine Decoder.consumes_pure ?_
  rw [List.append_nil]
  exact hrow.map fun key _ hkey => (hmake key).symm ▸ hkey

/-- A 64-bit count is written as it was read. -/
theorem toNanos64_ofNanos64 (nanos : UInt64) : (Duration.ofNanos64 nanos).toNanos64 = nanos := by
  have hsize := nanos.toNat_lt
  have hmin : min nanos.toNat (UInt64.size - 1) = nanos.toNat :=
    Nat.min_eq_left (by simp only [UInt64.size]; omega)
  simp only [Duration.ofNanos64, Duration.toNanos64, hmin, UInt64.ofNat_toNat]

theorem consumes_decoder : decoder.Consumes Spelling := by
  refine (Prefixed.consumes_decode _).bind fun miner _ hminer => ?_
  refine (Prefixed.consumes_decodeMany Transaction.consumes_decoder _).bind
    fun transactions _ htransactions => ?_
  refine Decoder.consumes_word64.bind fun nonce _ hnonce => ?_
  refine Decoder.consumes_word64.bind fun difficulty _ hdifficulty => ?_
  refine Decoder.consumes_word64.bind fun timestamp _ htimestamp => ?_
  refine consumes_digest.bind fun previous _ hprevious => ?_
  refine Decoder.consumes_word64.bind fun miningTime _ hminingTime => ?_
  have hkeys : (listDecoder MinerKey.mk).Consumes KeysSpelling := consumes_list fun _ => rfl
  have hsigns : (listDecoder Signature.mk).Consumes SignaturesSpelling := consumes_list fun _ => rfl
  refine hkeys.bind fun preVerifiers _ hpreVerifiers => ?_
  refine hsigns.bind fun preSignatures _ hpreSignatures => ?_
  refine hkeys.bind fun verifiers _ hverifiers => ?_
  refine hsigns.bind fun signatures _ hsignatures => ?_
  refine Decoder.consumes_pure ?_
  subst hnonce hdifficulty htimestamp hprevious
  rw [← toNanos64_ofNanos64 miningTime] at hminingTime
  subst hminingTime
  rw [List.append_nil]
  exact .intro hminer htransactions hpreVerifiers hpreSignatures hverifiers hsignatures

theorem spelledCodec (input : Bytes) :
    SpelledCodec WithinLimits encode Spelling decode input := by
  refine Decoder.spelledCodec (fun _ _ => Spelling.reads) consumes_decoder yields_limits
    (fun _ => spelling_encode) (fun _ _ => Spelling.writtenOrLonger) (fun block h => ?_) input
  obtain ⟨miner, hlonger, hminer⟩ :=
    Prefixed.spelling_widest (Nat.le_trans h.miner (by decide : maxKeyBytes ≤ 0xffffffff))
  -- the other fields stand as they are written
  refine ⟨_, ?_, .intro hminer (spelling_transactions h) (spelling_list h.preVerifiers)
    (spelling_list h.preSignatures) (spelling_list h.verifiers) (spelling_list h.signatures)⟩
  simp only [encode, encodeIn, encodeFinalSets, encodeKeys, encodeSignatures, scopedTime,
    List.length_append]
  omega

/-- **Bytes are read as a block or a transaction exactly when they spell it**, and writing it gives
those bytes exactly when they are not longer than need be. -/
theorem spellings_exact (input : Bytes) :
    SpelledCodec WithinLimits encode Spelling decode input ∧
      SpelledCodec Transaction.WithinLimits Transaction.encode Transaction.Spelling
        Transaction.decode input :=
  ⟨spelledCodec input, Transaction.spelledCodec input⟩

/-- Genesis with the length of its miner's key in three bytes, and a transaction without keys
with that of its sender in three bytes. -/
theorem respelled_genesis :
    (decode (0xfd :: 33 :: 0 :: genesis.encode.tail) = .ok genesis ∧
        genesis.encode ≠ 0xfd :: 33 :: 0 :: genesis.encode.tail) ∧
      Transaction.decode (0xfd :: 0 :: 0 :: 0 :: List.replicate 16 0) = .ok ⟨⟨[]⟩, ⟨[]⟩, 0, 0⟩ ∧
        Transaction.encode ⟨⟨[]⟩, ⟨[]⟩, 0, 0⟩ ≠ 0xfd :: 0 :: 0 :: 0 :: List.replicate 16 0 := by
  refine ⟨⟨rfl, ?_⟩, rfl, ?_⟩
  · decide
  · decide

end Block

end AttestedLedger
