/-
What can be wrong with bytes that do not decode.

An error says what is wrong with some bytes, and parts of it are taken from them: a length
they announce, a command they begin with, the number of bytes left over.  `Modest` says that
these parts are no larger than a word, or a command, can be, so that the text of an error is
short whatever the bytes were.

`Decoder.Tame` is carried along `bind` like `Reads` and `Yields`: a tame decoder has only
modest errors, and it never leaves more of its input than there was.
-/
import AttestedLedger.Message
import AttestedLedger.Proofs.Codec.RoundTrip
import AttestedLedger.Proofs.Text.Length

namespace AttestedLedger

/-! ### Errors -/

/-- Nothing in the fault is longer than a word or a command. -/
def FieldFault.Modest : FieldFault → Prop
  | .commandNotText fault => fault.index < 2 ^ 64 ∧ ∀ n, fault.length = some n → n < 2 ^ 64
  | .unknownCommand name => name.length ≤ Message.commandLength
  | .shortFrame => True
  | .payloadLength actual announced => actual < 2 ^ 64 ∧ announced < 2 ^ 64

/-- Nothing in the error is longer than a word or a command. -/
def CodecError.Modest : CodecError → Prop
  | .truncated => True
  | .lengthOverflow n | .trailingBytes n => n < 2 ^ 64
  | .invalidField fault => fault.Modest

theorem Utf8.Fault.length_message_le {fault : Utf8.Fault} (hindex : fault.index < 2 ^ 64)
    (hlength : ∀ n, fault.length = some n → n < 2 ^ 64) : fault.message.length ≤ 100 := by
  have hi := length_toString_nat hindex
  unfold message
  split
  · rename_i n hn
    have hl := length_toString_nat (hlength n hn)
    simp only [String.length_append]
    show 26 + _ + 18 + _ ≤ 100
    omega
  · simp only [String.length_append]
    show 42 + _ ≤ 100
    omega

theorem FieldFault.Modest.length_message_le {fault : FieldFault} (h : fault.Modest) :
    fault.message.length ≤ 120 := by
  unfold message
  cases fault with
  | commandNotText fault =>
      have hfault := Utf8.Fault.length_message_le h.1 h.2
      dsimp only
      rw [String.length_append]
      show 14 + fault.message.length ≤ 120
      omega
  | unknownCommand name =>
      have hname : name.length ≤ 12 := h
      dsimp only
      rw [String.length_append]
      show 22 + name.length ≤ 120
      omega
  | shortFrame => exact (by decide : 17 ≤ 120)
  | payloadLength actual announced =>
      have hactual := length_toString_nat h.1
      have hannounced := length_toString_nat h.2
      dsimp only
      simp only [String.length_append]
      show 15 + _ + 23 + _ ≤ 120
      omega

/-- **The text of a modest error is short.** -/
theorem CodecError.Modest.length_message_le {e : CodecError} (h : e.Modest) :
    e.message.length ≤ 150 := by
  unfold message
  cases e with
  | truncated => exact (by decide : 52 ≤ 150)
  | lengthOverflow n =>
      have hn := length_toString_nat h
      dsimp only
      simp only [String.length_append]
      show 14 + _ + 24 ≤ 150
      omega
  | trailingBytes n =>
      have hn := length_toString_nat h
      dsimp only
      simp only [String.length_append]
      show _ + 27 ≤ 150
      omega
  | invalidField fault =>
      have hfault := FieldFault.Modest.length_message_le h
      dsimp only
      rw [String.length_append]
      show 15 + fault.message.length ≤ 150
      omega

/-! ### Decoders -/

namespace Decoder

variable {α β : Type}

/-- A modest error, or a value and no more than was given. -/
def Bounded (input : Bytes) : Except CodecError (α × Bytes) → Prop
  | .error e => e.Modest
  | .ok (_, rest) => rest.length ≤ input.length

/-- The decoder has only modest errors and leaves no more than it was given. -/
def Tame (decoder : Decoder α) : Prop := ∀ input, Bounded input (decoder input)

theorem Bounded.mono {short long : Bytes} {result : Except CodecError (α × Bytes)}
    (h : Bounded short result) (hlength : short.length ≤ long.length) : Bounded long result := by
  cases result with
  | error e => exact h
  | ok pair => exact Nat.le_trans h hlength

theorem tame_pure (value : α) : (pure value : Decoder α).Tame := fun _ => Nat.le_refl _

theorem tame_throw {e : CodecError} (h : e.Modest) : (throw e : Decoder α).Tame := fun _ => h

/-- **Tame decoders one after another are tame**; of the second it is enough to know that for
the values that the first can yield. -/
theorem Tame.bind {decoder : Decoder α} {next : α → Decoder β} {property : α → Prop}
    (hfirst : decoder.Tame) (hyields : decoder.Yields property)
    (hnext : ∀ x, property x → (next x).Tame) : (decoder >>= next).Tame := by
  intro input
  have hbefore := hfirst input
  cases hread : decoder input with
  | error e =>
      rw [hread] at hbefore
      rw [bind_of_error hread]
      exact hbefore
  | ok pair =>
      obtain ⟨x, middle⟩ := pair
      rw [hread] at hbefore
      rw [bind_of_ok hread]
      exact (hnext x (hyields input x middle hread) middle).mono hbefore

theorem Tame.andThen {decoder : Decoder α} {next : α → Decoder β} (hfirst : decoder.Tame)
    (hnext : ∀ x, (next x).Tame) : (decoder >>= next).Tame :=
  hfirst.bind (yields_any decoder) fun x _ => hnext x

theorem tame_exactly (count : Nat) : (exactly count).Tame := by
  intro input
  unfold exactly
  cases hsplit : Bytes.splitExact count input with
  | none => exact trivial
  | some pair => exact Nat.le.intro (Bytes.length_of_splitExact hsplit)

theorem tame_word (width : Nat) : (word width).Tame := by
  intro input
  unfold word
  cases hsplit : Bytes.splitExact width input with
  | none => exact trivial
  | some pair => exact Nat.le.intro (Bytes.length_of_splitExact hsplit)

theorem tame_word64 : word64.Tame := (tame_word 8).andThen fun _ => tame_pure _

theorem tame_times {item : Decoder α} (h : item.Tame) (count : Nat) : (times item count).Tame := by
  induction count with
  | zero => exact tame_pure []
  | succ count ih => exact h.andThen fun _ => ih.andThen fun _ => tame_pure _

/-- A whole string that is not longer than a word can count has only modest errors. -/
theorem Tame.complete {decoder : Decoder α} (h : decoder.Tame) {input : Bytes}
    (hinput : input.length < 2 ^ 64) {e : CodecError} (he : decoder.complete input = .error e) :
    e.Modest := by
  have hread := h input
  unfold Decoder.complete at he
  cases hresult : decoder input with
  | error error =>
      rw [hresult] at he hread
      exact Except.error.inj he ▸ hread
  | ok pair =>
      obtain ⟨value, rest⟩ := pair
      rw [hresult] at he hread
      cases rest with
      | nil => exact absurd he (by simp)
      | cons b rest =>
          obtain rfl := Except.error.inj he
          exact Nat.lt_of_le_of_lt hread hinput

end Decoder

/-! ### The decoders of the format -/

namespace Varint

theorem yields_word {width : Nat} (h : width ≤ 8) :
    (Decoder.word width).Yields fun n => n < 2 ^ 64 := by
  intro input n rest hread
  unfold Decoder.word at hread
  split at hread
  · rename_i front left hsplit
    obtain ⟨hlength, -⟩ := Bytes.splitExact_eq_some_iff.mp hsplit
    obtain ⟨rfl, -⟩ := Prod.mk.inj (Except.ok.inj hread)
    have hpow : 256 ^ front.length ≤ 256 ^ 8 := Nat.pow_le_pow_right (by decide) (hlength ▸ h)
    exact Nat.lt_of_lt_of_le (Bytes.littleEndianValue_lt front) hpow
  · exact absurd hread (by simp)

/-- No number that is read is larger than a word. -/
theorem yields_decode : Decoder.Yields decode fun n => n < 2 ^ 64 := by
  intro input n rest hread
  cases input with
  | nil => exact absurd hread (by simp [decode])
  | cons marker more =>
      simp only [decode] at hread
      split at hread
      · have hmarker := marker.toNat_lt
        rw [← (Prod.mk.inj (Except.ok.inj hread)).1]
        omega
      split at hread
      · exact yields_word (by decide) _ _ _ hread
      split at hread
      · exact yields_word (by decide) _ _ _ hread
      · exact yields_word (by decide) _ _ _ hread

theorem tame_decode : Decoder.Tame decode := by
  intro input
  cases input with
  | nil => exact trivial
  | cons marker more =>
      have hword : ∀ width, Decoder.Bounded (marker :: more) (Decoder.word width more) :=
        fun width => (Decoder.tame_word width more).mono (Nat.le_succ _)
      have hread : decode (marker :: more) = if marker ≤ 0xfc then .ok (marker.toNat, more)
          else if marker = 0xfd then Decoder.word 2 more
          else if marker = 0xfe then Decoder.word 4 more else Decoder.word 8 more := rfl
      rw [hread]
      by_cases hone : marker ≤ 0xfc
      · rw [if_pos hone]
        exact Nat.le_succ _
      by_cases htwo : marker = 0xfd
      · rw [if_neg hone, if_pos htwo]
        exact hword 2
      by_cases hfour : marker = 0xfe
      · rw [if_neg hone, if_neg htwo, if_pos hfour]
        exact hword 4
      · rw [if_neg hone, if_neg htwo, if_neg hfour]
        exact hword 8

end Varint

namespace Prefixed

variable {α : Type}

theorem tame_length (limit : Nat) : (length limit).Tame := by
  refine Varint.tame_decode.bind Varint.yields_decode fun n hn => ?_
  split
  · exact Decoder.tame_throw hn
  · exact Decoder.tame_pure n

theorem tame_decode (limit : Nat) : (decode limit).Tame :=
  (tame_length limit).andThen fun n => Decoder.tame_exactly n

theorem tame_decodeMany {item : Decoder α} (h : item.Tame) (limit : Nat) :
    (decodeMany limit item).Tame :=
  (tame_length limit).andThen fun n => Decoder.tame_times h n

end Prefixed

theorem Transaction.tame_decoder : decoder.Tame := by
  refine (Prefixed.tame_decode _).andThen fun sender => ?_
  refine (Prefixed.tame_decode _).andThen fun recipient => ?_
  refine Decoder.tame_word64.andThen fun amount => ?_
  exact Decoder.tame_word64.andThen fun timestamp => Decoder.tame_pure _

namespace Block

theorem tame_digestDecoder : digestDecoder.Tame := by
  intro input
  unfold digestDecoder
  cases hsplit : Bytes.splitExact 32 input with
  | none => exact trivial
  | some pair =>
      obtain ⟨front, rest⟩ := pair
      have hfront := (Bytes.splitExact_eq_some_iff.mp hsplit).1
      dsimp only
      rw [dif_pos hfront]
      exact Nat.le.intro (Bytes.length_of_splitExact hsplit)

theorem tame_listDecoder {α : Type} (make : Bytes → α) : (listDecoder make).Tame :=
  (Prefixed.tame_decodeMany (Prefixed.tame_decode _) _).andThen fun _ => Decoder.tame_pure _

theorem tame_decoder : decoder.Tame := by
  refine (Prefixed.tame_decode _).andThen fun miner => ?_
  refine (Prefixed.tame_decodeMany Transaction.tame_decoder _).andThen fun transactions => ?_
  refine Decoder.tame_word64.andThen fun nonce => ?_
  refine Decoder.tame_word64.andThen fun difficulty => ?_
  refine Decoder.tame_word64.andThen fun timestamp => ?_
  refine tame_digestDecoder.andThen fun previous => ?_
  refine Decoder.tame_word64.andThen fun miningTime => ?_
  refine (tame_listDecoder MinerKey.mk).andThen fun preVerifiers => ?_
  refine (tame_listDecoder Signature.mk).andThen fun preSignatures => ?_
  refine (tame_listDecoder MinerKey.mk).andThen fun verifiers => ?_
  exact (tame_listDecoder Signature.mk).andThen fun signatures => Decoder.tame_pure _

end Block

/-! ### Frames -/

namespace Message

theorem tame_attestationDecoder : attestationDecoder.Tame :=
  (Prefixed.tame_decode _).andThen fun _ => (Prefixed.tame_decode _).andThen fun _ =>
    Decoder.tame_pure _

/-- A value that is changed after it was read is refused as it was. -/
theorem map_eq_error {α : Type} {make : α → Message} {parsed : Except CodecError α} {e : CodecError}
    (h : parsed.map make = .error e) : parsed = .error e := by
  cases parsed with
  | error error => exact congrArg _ (Except.error.inj h)
  | ok x => exact absurd h (by simp [Except.map])

theorem modest_of_ofEmpty {m : Message} {payload : Bytes} (hlength : payload.length < 2 ^ 64)
    {e : CodecError} (h : ofEmpty m payload = .error e) : e.Modest := by
  unfold ofEmpty at h
  split at h
  · exact absurd h (by simp)
  · exact Except.error.inj h ▸ hlength

theorem modest_of_ofPayload {kind : MessageKind} {payload : Bytes}
    (hlength : payload.length < 2 ^ 64) {e : CodecError} (h : ofPayload kind payload = .error e) :
    e.Modest := by
  cases kind with
  | identify => exact modest_of_ofEmpty hlength h
  | declined => exact modest_of_ofEmpty hlength h
  | ack => exact modest_of_ofEmpty hlength h
  | identity => exact (Prefixed.tame_decode _).complete hlength (map_eq_error h)
  | reject => exact (Prefixed.tame_decode _).complete hlength (map_eq_error h)
  | verifyTime => exact Block.tame_decoder.complete hlength (map_eq_error h)
  | block => exact Block.tame_decoder.complete hlength (map_eq_error h)
  | transaction => exact Transaction.tame_decoder.complete hlength (map_eq_error h)
  | attested => exact tame_attestationDecoder.complete hlength h

theorem length_trimZeros_le (bytes : Bytes) : (trimZeros bytes).length ≤ bytes.length := by
  rw [trimZeros, List.length_reverse]
  refine Nat.le_trans (List.dropWhile_sublist _).length_le ?_
  rw [List.length_reverse]

theorem modest_of_parseHeader {header : Bytes} (hlength : header.length = headerLength)
    {e : CodecError} (h : parseHeader header = .error e) : e.Modest := by
  have hfield : (header.take commandLength).length ≤ commandLength := by
    rw [List.length_take]
    exact Nat.min_le_left _ _
  unfold parseHeader at h
  dsimp only at h
  split at h
  · rename_i fault hfault
    obtain ⟨hindex, hwidth⟩ := Utf8.faultFrom_le _ _ _ hfault
    obtain rfl := Except.error.inj h
    refine ⟨?_, fun n hn => Nat.lt_of_le_of_lt (hwidth n hn) (by decide)⟩
    have hfew : 4 * (header.take commandLength).length ≤ 4 * 12 := Nat.mul_le_mul_left 4 hfield
    omega
  split at h
  · obtain rfl := Except.error.inj h
    exact Nat.le_trans (Utf8.length_decodeLossy_le _)
      (Nat.le_trans (length_trimZeros_le _) hfield)
  split at h
  · obtain rfl := Except.error.inj h
    have hvalue := Bytes.littleEndianValue_lt (header.drop commandLength)
    rw [List.length_drop, hlength] at hvalue
    exact Nat.lt_of_lt_of_le hvalue (by decide)
  · exact absurd h (by simp)

/-- No header announces more than a payload may be. -/
theorem length_le_of_parseHeader {header : Bytes} {kind : MessageKind} {length : Nat}
    (h : parseHeader header = .ok (kind, length)) : length ≤ maxPayload := by
  unfold parseHeader at h
  dsimp only at h
  split at h
  · exact absurd h (by simp)
  split at h
  · exact absurd h (by simp)
  split at h
  · exact absurd h (by simp)
  · rename_i hshort
    obtain ⟨-, rfl⟩ := Prod.mk.inj (Except.ok.inj h)
    exact Nat.le_of_not_lt hshort

/-- **Whatever a stream begins with, the error it is refused with is modest.** -/
theorem modest_of_receive {stream : Bytes} {e : CodecError} (h : receive stream = .malformed e) :
    e.Modest := by
  unfold receive receiveBy at h
  split at h
  · exact absurd h (by simp)
  · rename_i header body hheader
    obtain ⟨hlength, -⟩ := Bytes.splitExact_eq_some_iff.mp hheader
    split at h
    · rename_i error herror
      exact Received.malformed.inj h ▸ modest_of_parseHeader hlength herror
    · rename_i kind length hannounced
      split at h
      · exact absurd h (by simp)
      · rename_i payload rest hpayload
        split at h
        · exact absurd h (by simp)
        · rename_i error herror
          have hlength := length_le_of_parseHeader hannounced
          rw [← (Bytes.splitExact_eq_some_iff.mp hpayload).1] at hlength
          exact Received.malformed.inj h ▸
            modest_of_ofPayload (Nat.lt_of_le_of_lt hlength (by decide)) herror

end Message

end AttestedLedger
