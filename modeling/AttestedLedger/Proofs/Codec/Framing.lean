/-
Frames keep a connection in step.

A frame says by itself where it ends, so a receiver never has to guess: what it takes off a
stream for a message is exactly a frame of that message, and the next frame begins where it
stopped.  `IsFrame` is what the two ways of decoding have in common.  A whole input decodes
to a message when it is a frame of it, and a stream gives a message when it begins with one;
how the stream was cut into pieces on its way does not matter.

The frames that are written are frames of their messages as long as the messages are within
the limits of the format.  Beyond them there is always something that does not fit: the
payload is too long to be announced, or one of its fields too long to be read.
-/
import AttestedLedger.Peer.Stream
import AttestedLedger.Proofs.Codec.Limits
import AttestedLedger.Proofs.Codec.RoundTrip

namespace AttestedLedger

/-! ### Pieces -/

/-- What is read off the pieces is read off the whole stream. -/
theorem Arrivals.readExact_joined (count : Nat) (arrivals : Arrivals) :
    (readExact count arrivals).map (Prod.map id List.flatten) =
      Bytes.splitExact count arrivals.flatten := by
  induction arrivals generalizing count with
  | nil =>
      by_cases hcount : count = 0
      · subst hcount
        rfl
      · have hshort : ([] : Bytes).length < count := Nat.pos_of_ne_zero hcount
        rw [readExact, if_neg hcount, List.flatten_nil, Bytes.splitExact_eq_none_iff.mpr hshort]
        rfl
  | cons piece later ih =>
      rw [readExact, List.flatten_cons]
      split
      · rename_i hcount
        have hfront : (piece.take count).length = count := by
          rw [List.length_take, Nat.min_eq_left hcount]
        have hjoined : piece ++ later.flatten =
            piece.take count ++ (piece.drop count ++ later.flatten) := by
          rw [← List.append_assoc, List.take_append_drop]
        rw [hjoined, Bytes.splitExact_append hfront]
        rfl
      · have hlater := ih (count - piece.length)
        cases hread : readExact (count - piece.length) later with
        | none =>
            rw [hread] at hlater
            have hshort := Bytes.splitExact_eq_none_iff.mp hlater.symm
            refine (Bytes.splitExact_eq_none_iff.mpr ?_).symm
            rw [List.length_append]
            omega
        | some split =>
            obtain ⟨others, left⟩ := split
            rw [hread, Option.map_some, Prod.map_apply, id_eq] at hlater
            obtain ⟨hlength, hflat⟩ := Bytes.splitExact_eq_some_iff.mp hlater.symm
            have hfront : (piece ++ others).length = count := by
              rw [List.length_append, hlength]
              omega
            rw [hflat, ← List.append_assoc, Bytes.splitExact_append hfront]
            rfl

namespace Message

variable {σ τ : Type} {m : Message} {rest : Bytes}

/-- The same, with what follows seen in another way. -/
def Received.map (view : σ → τ) : Received σ → Received τ
  | message m rest => message m (view rest)
  | malformed error => malformed error
  | cutOff => cutOff

/-- Two sources that are read alike hold the same messages. -/
theorem receiveBy_map {read : Nat → σ → Option (Bytes × σ)} {other : Nat → τ → Option (Bytes × τ)}
    {view : σ → τ}
    (h : ∀ count source, (read count source).map (Prod.map id view) = other count (view source))
    (source : σ) : (receiveBy read source).map view = receiveBy other (view source) := by
  unfold receiveBy
  rw [← h]
  cases read headerLength source with
  | none => rfl
  | some split =>
      obtain ⟨header, rest⟩ := split
      cases hheader : parseHeader header with
      | error e => simp [hheader, Received.map]
      | ok announced =>
          obtain ⟨kind, length⟩ := announced
          simp only [Option.map_some, Prod.map_apply, id_eq, hheader, ← h]
          cases read length rest with
          | none => rfl
          | some split =>
              obtain ⟨payload, rest⟩ := split
              cases hpayload : ofPayload kind payload with
              | error e => simp [hpayload, Received.map]
              | ok message => simp [hpayload, Received.map]

/-! ### Frames -/

/-- A header that announces a payload, and the payload, which is this message. -/
def IsFrame (frame : Bytes) (m : Message) : Prop :=
  ∃ header payload kind, frame = header ++ payload ∧ header.length = headerLength ∧
    parseHeader header = .ok (kind, payload.length) ∧ ofPayload kind payload = .ok m

/-- A whole input decodes to the message it is a frame of. -/
theorem decode_eq_ok_iff {input : Bytes} : decode input = .ok m ↔ IsFrame input m := by
  constructor
  · intro h
    unfold decode at h
    split at h
    · exact absurd h (by simp)
    · rename_i header payload hsplit
      obtain ⟨hlength, hinput⟩ := Bytes.splitExact_eq_some_iff.mp hsplit
      split at h
      · exact absurd h (by simp)
      · rename_i kind length hheader
        split at h
        · rename_i hpayload
          exact ⟨header, payload, kind, hinput, hlength, hpayload ▸ hheader, h⟩
        · exact absurd h (by simp)
  · rintro ⟨header, payload, kind, rfl, hlength, hheader, hpayload⟩
    simp only [decode, Bytes.splitExact_append hlength, hheader, hpayload, if_true]

/-- A stream gives a message when it begins with a frame of it, and is left behind that frame. -/
theorem receive_eq_message_iff {stream : Bytes} :
    receive stream = .message m rest ↔ ∃ frame, IsFrame frame m ∧ stream = frame ++ rest := by
  constructor
  · intro h
    unfold receive receiveBy at h
    split at h
    · exact absurd h (by simp)
    · rename_i header body hheader
      obtain ⟨hlength, rfl⟩ := Bytes.splitExact_eq_some_iff.mp hheader
      split at h
      · exact absurd h (by simp)
      · rename_i kind length hannounced
        split at h
        · exact absurd h (by simp)
        · rename_i payload left hpayload
          obtain ⟨rfl, rfl⟩ := Bytes.splitExact_eq_some_iff.mp hpayload
          split at h
          · rename_i message hmessage
            obtain ⟨rfl, rfl⟩ := Received.message.inj h
            refine ⟨header ++ payload, ?_, (List.append_assoc ..).symm⟩
            exact ⟨header, payload, kind, rfl, hlength, hannounced, hmessage⟩
          · exact absurd h (by simp)
  · rintro ⟨frame, ⟨header, payload, kind, rfl, hlength, hheader, hpayload⟩, rfl⟩
    simp only [receive, receiveBy, List.append_assoc, Bytes.splitExact_append hlength, hheader,
      Bytes.splitExact_append rfl, hpayload]

theorem Received.map_eq_message_iff {view : σ → τ} {received : Received σ} {rest : τ} :
    received.map view = .message m rest ↔ ∃ left, received = .message m left ∧ view left = rest := by
  cases received <;> simp [Received.map, and_assoc]

end Message

/-- **A stream in pieces gives a message when what arrives begins with a frame of it**, and the
pieces that are left hold what follows the frame. -/
theorem Arrivals.receive_iff {arrivals : Arrivals} {m : Message} {frame rest : Bytes}
    (h : arrivals.flatten = frame ++ rest) :
    (∃ left, receive arrivals = .message m left ∧ left.flatten = rest) ↔ m.IsFrame frame := by
  have hjoined : (receive arrivals).map List.flatten = Message.receive (frame ++ rest) :=
    h ▸ Message.receiveBy_map readExact_joined arrivals
  rw [← Message.Received.map_eq_message_iff, hjoined, Message.receive_eq_message_iff]
  constructor
  · rintro ⟨other, hframe, heq⟩
    exact List.append_cancel_right heq ▸ hframe
  · intro hframe
    exact ⟨frame, hframe, rfl⟩

/-! ### Written headers -/

namespace Message

theorem length_padCommand (kind : MessageKind) :
    (padCommand kind.command).length = commandLength := by
  cases kind <;> decide

theorem firstFault_padCommand (kind : MessageKind) :
    Utf8.firstFault (padCommand kind.command) = none := by
  cases kind <;> decide

/-- No command ends in a zero, so only the filling is cut off. -/
theorem trimZeros_padCommand (kind : MessageKind) :
    trimZeros (padCommand kind.command) = Utf8.encode kind.command := by
  cases kind <;> decide

/-- A length is announced modulo what four bytes can count. -/
theorem parseHeader_written (kind : MessageKind) (length : Nat) :
    parseHeader (padCommand kind.command ++ Bytes.littleEndian 4 length) =
      if maxPayload < length % 256 ^ 4 then .error (.lengthOverflow (length % 256 ^ 4))
      else .ok (kind, length % 256 ^ 4) := by
  have hcommand := length_padCommand kind
  simp only [parseHeader, List.take_left' hcommand, List.drop_left' hcommand,
    firstFault_padCommand, trimZeros_padCommand, Utf8.decodeLossy_encode,
    MessageKind.ofCommand?_command, Bytes.littleEndianValue_littleEndian]

/-! ### Written payloads -/

/-- A message whose fields the format can carry. -/
def FieldsWithinLimits : Message → Prop
  | identify | declined | ack => True
  | identity key => key.bytes.length ≤ maxField
  | verifyTime b | block b => b.WithinLimits
  | attested a => a.signature.bytes.length ≤ maxField ∧ a.key.bytes.length ≤ maxField
  | transaction tx => tx.WithinLimits
  | reject reason => (Utf8.encode reason).length ≤ maxField

/-- A message that the format can carry. -/
structure WithinLimits (m : Message) : Prop where
  fields : m.FieldsWithinLimits
  payload : m.payload.length ≤ maxPayload

instance : (m : Message) → Decidable m.FieldsWithinLimits
  | identify | declined | ack => inferInstanceAs (Decidable True)
  | identity key => inferInstanceAs (Decidable (key.bytes.length ≤ maxField))
  | verifyTime b | block b => inferInstanceAs (Decidable b.WithinLimits)
  | attested _ => inferInstanceAs (Decidable (_ ∧ _))
  | transaction tx => inferInstanceAs (Decidable tx.WithinLimits)
  | reject reason => inferInstanceAs (Decidable ((Utf8.encode reason).length ≤ maxField))

instance (m : Message) : Decidable m.WithinLimits :=
  decidable_of_iff (m.FieldsWithinLimits ∧ m.payload.length ≤ maxPayload)
    ⟨fun h => ⟨h.1, h.2⟩, fun h => ⟨h.fields, h.payload⟩⟩

end Message

/-- A field that stands alone in a payload. -/
theorem Prefixed.reads_field {bytes : Bytes} (h : bytes.length ≤ Message.maxField) :
    (decode Message.maxField).Reads (encode bytes) bytes :=
  (spelling_encode (Nat.lt_of_le_of_lt h (by decide))).reads h

theorem Prefixed.exactCodec_field :
    ExactCodec (fun bytes : Bytes => bytes.length ≤ Message.maxField) encode
      (decode Message.maxField).complete :=
  Decoder.exactCodec (fun _ => reads_field) (yields_decode Message.maxField)

namespace Message

/-- The two fields of an attestation are read back when both are short enough, and nothing
else is read. -/
theorem exactCodec_attestation :
    ExactCodec (fun m => m.kind = .attested ∧ m.FieldsWithinLimits) payload
      attestationDecoder.complete := by
  refine Decoder.exactCodec (fun m hm => ?_) ?_
  · obtain ⟨hkind, hfields⟩ := hm
    cases m with
    | attested a =>
        refine (Prefixed.reads_field hfields.1).bind ?_
        exact (Prefixed.reads_field hfields.2).map _
    | _ => contradiction
  · refine Decoder.Yields.bind (Prefixed.yields_decode _) fun signature hsignature => ?_
    refine Decoder.Yields.bind (Prefixed.yields_decode _) fun key hkey => ?_
    exact Decoder.yields_pure ⟨rfl, hsignature, hkey⟩

/-- A message that consists of one value is read back when the value is. -/
theorem map_eq_ok_iff {α : Type} {make : α → Message} (hmake : Function.Injective make)
    {parsed : Except CodecError α} {x : α} :
    parsed.map make = .ok (make x) ↔ parsed = .ok x := by
  cases parsed with
  | error e => simp [Except.map]
  | ok y => simp [Except.map, hmake.eq_iff]

/-- Reasons are read forgivingly, but only after their length was found short enough. -/
theorem ofPayload_reject_iff {reason : String}
    (h : (Prefixed.encode (Utf8.encode reason)).length ≤ maxPayload) :
    ofPayload .reject (Prefixed.encode (Utf8.encode reason)) = .ok (.reject reason) ↔
      (Utf8.encode reason).length ≤ maxField := by
  constructor
  · intro hok
    refine Nat.le_of_not_lt fun hlong => ?_
    have hword : (Utf8.encode reason).length < 2 ^ 64 := by
      rw [Prefixed.encode, List.length_append, maxPayload] at h
      omega
    have hread := Prefixed.screens_decode maxField hword []
    rw [List.append_nil, Prefixed.overflow?, if_pos hlong] at hread
    simp [ofPayload, Decoder.complete, hread, Except.map] at hok
  · intro hshort
    have hread := (Prefixed.exactCodec_field.readsBack (Utf8.encode reason)).mpr hshort
    simp only [ofPayload, hread, Except.map, Utf8.decodeLossy_encode]

/-- A payload short enough to be announced is read as the message it was written for exactly
when the fields of the message are short enough. -/
theorem ofPayload_payload_iff (h : m.payload.length ≤ maxPayload) :
    ofPayload m.kind m.payload = .ok m ↔ m.FieldsWithinLimits := by
  cases m with
  | identify => exact iff_of_true rfl trivial
  | declined => exact iff_of_true rfl trivial
  | ack => exact iff_of_true rfl trivial
  | identity key =>
      have hmake : Function.Injective fun bytes => identity ⟨bytes⟩ :=
        fun _ _ heq => MinerKey.mk.inj (identity.inj heq)
      exact (map_eq_ok_iff hmake).trans (Prefixed.exactCodec_field.readsBack key.bytes)
  | verifyTime b =>
      exact (map_eq_ok_iff fun _ _ => verifyTime.inj).trans (Block.exactCodec.readsBack b)
  | block b => exact (map_eq_ok_iff fun _ _ => block.inj).trans (Block.exactCodec.readsBack b)
  | attested a => exact (exactCodec_attestation.readsBack (.attested a)).trans (and_iff_right rfl)
  | transaction tx =>
      exact (map_eq_ok_iff fun _ _ => transaction.inj).trans (Transaction.exactCodec.readsBack tx)
  | reject reason => exact ofPayload_reject_iff h

/-! ### Written frames -/

/-- **What is written for a message is a frame of it exactly when the message is within the
limits.** -/
theorem isFrame_encode_iff : IsFrame m.encode m ↔ m.WithinLimits := by
  have hlength : (padCommand m.kind.command ++ Bytes.littleEndian 4 m.payload.length).length =
      headerLength := by
    rw [List.length_append, length_padCommand, Bytes.length_littleEndian]
    rfl
  rw [encode, ← List.append_assoc]
  constructor
  · rintro ⟨header, payload, kind, heq, hheader, hparse, hpayload⟩
    obtain ⟨rfl, rfl⟩ := List.append_inj heq (hlength.trans hheader.symm)
    rw [parseHeader_written] at hparse
    split at hparse
    · exact absurd hparse (by simp)
    · rename_i hannounced
      obtain ⟨rfl, hsame⟩ := Prod.mk.inj (Except.ok.inj hparse)
      -- more than four bytes can count is announced as less than it is
      have hshort : m.payload.length ≤ maxPayload := by omega
      exact ⟨(ofPayload_payload_iff hshort).mp hpayload, hshort⟩
  · intro h
    have hword : m.payload.length < 256 ^ 4 := Nat.lt_of_le_of_lt h.payload (by decide)
    refine ⟨_, m.payload, m.kind, rfl, hlength, ?_, (ofPayload_payload_iff h.payload).mpr h.fields⟩
    rw [parseHeader_written, Nat.mod_eq_of_lt hword, if_neg (Nat.not_lt.mpr h.payload)]

end Message

/-- The frames of a list of messages, whatever follows them, are received one by one. -/
theorem Arrivals.receiveMany_frames {messages : List Message} {arrivals : Arrivals} {rest : Bytes}
    (hlimits : ∀ m ∈ messages, m.WithinLimits)
    (h : arrivals.flatten = messages.flatMap Message.encode ++ rest) :
    ∃ left, arrivals.receiveMany messages.length = some (messages, left) ∧
      left.flatten = rest := by
  induction messages generalizing arrivals with
  | nil => exact ⟨arrivals, rfl, h⟩
  | cons m others ih =>
      rw [List.flatMap_cons, List.append_assoc] at h
      have hframe := Message.isFrame_encode_iff.mpr (hlimits m List.mem_cons_self)
      obtain ⟨behind, hreceive, hbehind⟩ := (receive_iff h).mpr hframe
      obtain ⟨left, hmany, hleft⟩ :=
        ih (fun other hother => hlimits other (List.mem_cons_of_mem m hother)) hbehind
      refine ⟨left, ?_, hleft⟩
      simp only [List.length_cons, receiveMany, hreceive, hmany]

namespace Message

/-- **Frames carry exactly the messages within the limits, and keep a stream in step.**  A
message is read back from its frame if and only if it is within the limits.  The frames of any
such messages are received in order and nothing beyond them is touched, however the stream is
cut into pieces.  A whole input and the front of a stream decode alike. -/
theorem framing_exact :
    (∀ m : Message, decode m.encode = .ok m ↔ m.WithinLimits) ∧
      (∀ (messages : List Message) (rest : Bytes) (arrivals : Arrivals),
        (∀ m ∈ messages, m.WithinLimits) →
        arrivals.flatten = messages.flatMap encode ++ rest →
        ∃ left, arrivals.receiveMany messages.length = some (messages, left) ∧
          left.flatten = rest) ∧
      ∀ (frame rest : Bytes) (arrivals : Arrivals) (m : Message),
        arrivals.flatten = frame ++ rest →
        (decode frame = .ok m ↔
          ∃ left, arrivals.receive = .message m left ∧ left.flatten = rest) :=
  ⟨fun _ => decode_eq_ok_iff.trans isFrame_encode_iff,
    fun _ _ _ hlimits h => Arrivals.receiveMany_frames hlimits h,
    fun _ _ _ _ h => decode_eq_ok_iff.trans (Arrivals.receive_iff h).symm⟩

/-- Two messages and the start of a third, in pieces that end inside a command and inside a
reason. -/
theorem framing_exact_split_mid_frame :
    let stream := [identify, reject "stale"].flatMap encode ++ Utf8.encode "tx"
    ∃ left, Arrivals.receiveMany 2 [stream.take 5, (stream.drop 5).take 30, (stream.drop 5).drop 30] =
        some ([identify, reject "stale"], left) ∧ left.flatten = Utf8.encode "tx" := by
  intro stream
  refine framing_exact.2.1 [identify, reject "stale"] (Utf8.encode "tx") _ (by decide) ?_
  simp only [List.flatten_cons, List.flatten_nil, List.append_nil, List.take_append_drop]
  rfl

end Message

end AttestedLedger
