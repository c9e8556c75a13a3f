/-
Messages between nodes, and their frames.

A frame is a header and a payload.  The header holds a command of at most twelve bytes,
filled up with zeros, and the payload's length in four bytes.  A frame can be decoded
whole, when its end is known, or from a stream, where the header says how much more to
read; `decode` and `receive` are these two ways.  Every call between nodes is one request
and one reply.
-/
import AttestedLedger.Attestation.Basic

namespace AttestedLedger

/-- The kinds of message. -/
inductive MessageKind where
  | identify
  | identity
  | verifyTime
  | attested
  | declined
  | transaction
  | block
  | ack
  | reject
  deriving DecidableEq, Repr

namespace MessageKind

/-- All kinds. -/
def all : List MessageKind :=
  [.identify, .identity, .verifyTime, .attested, .declined, .transaction, .block, .ack, .reject]

/-- The command that opens a frame. -/
def command : MessageKind → String
  | .identify => "identify"
  | .identity => "identity"
  | .verifyTime => "verifytime"
  | .attested => "verified"
  | .declined => "invalid"
  | .transaction => "tx"
  | .block => "block"
  | .ack => "ack"
  | .reject => "reject"

/-- The kind with this command. -/
def ofCommand? (command : String) : Option MessageKind := all.find? (·.command == command)

/-- The name of a kind in texts for people. -/
def title : MessageKind → String
  | .identify => "Identify"
  | .identity => "Identity"
  | .verifyTime => "VerifyTime"
  | .attested => "TimeVerified"
  | .declined => "TimeRejected"
  | .transaction => "Tx"
  | .block => "Block"
  | .ack => "Ack"
  | .reject => "Reject"

theorem ofCommand?_command (kind : MessageKind) : ofCommand? kind.command = some kind := by
  cases kind <;> decide

end MessageKind

/-- A request or a reply. -/
inductive Message where
  /-- Ask for the peer's public key. -/
  | identify
  | identity (key : MinerKey)
  /-- Ask the peer to attest a block's timestamp. -/
  | verifyTime (block : Block)
  | attested (attestation : Attestation)
  /-- The peer finds the timestamp implausible. -/
  | declined
  | transaction (tx : Transaction)
  | block (block : Block)
  | ack
  | reject (reason : String)
  deriving DecidableEq

namespace Message

/-- The kind of a message. -/
def kind : Message → MessageKind
  | identify => .identify
  | identity _ => .identity
  | verifyTime _ => .verifyTime
  | attested _ => .attested
  | declined => .declined
  | transaction _ => .transaction
  | block _ => .block
  | ack => .ack
  | reject _ => .reject

/-! ### Limits -/

/-- The length of a frame's header. -/
def headerLength : Nat := 16

/-- The length of the command inside it. -/
def commandLength : Nat := 12

/-- The longest payload a header may announce: 32 MiB. -/
def maxPayload : Nat := 32 * 1024 * 1024

/-- The longest key, signature or reason that stands alone in a payload. -/
def maxField : Nat := 4096

/-! ### Encoding -/

/-- The payload of a message. -/
def payload : Message → Bytes
  | identify | declined | ack => []
  | identity key => Prefixed.encode key.bytes
  | verifyTime b | block b => b.encode
  | attested a => Prefixed.encode a.signature.bytes ++ Prefixed.encode a.key.bytes
  | transaction tx => tx.encode
  | reject reason => Prefixed.encode (Utf8.encode reason)

/-- A command, filled up with zeros. -/
def padCommand (command : String) : Bytes :=
  let name := (Utf8.encode command).take commandLength
  name ++ List.replicate (commandLength - name.length) 0

/-- The frame of a message. -/
def encode (message : Message) : Bytes :=
  padCommand message.kind.command ++
    (Bytes.littleEndian 4 message.payload.length ++ message.payload)

/-! ### Decoding -/

/-- The bytes without the zeros they end in. -/
def trimZeros (bytes : Bytes) : Bytes := (bytes.reverse.dropWhile (· == 0)).reverse

/-- The kind and the payload length that a header announces. -/
def parseHeader (header : Bytes) : Except CodecError (MessageKind × Nat) :=
  let field := header.take commandLength
  match Utf8.firstFault field with
  | some fault => .error (.invalidField (.commandNotText fault))
  | none =>
    let name := Utf8.decodeLossy (trimZeros field)
    match MessageKind.ofCommand? name with
    | none => .error (.invalidField (.unknownCommand name))
    | some kind =>
      let length := Bytes.littleEndianValue (header.drop commandLength)
      if maxPayload < length then .error (.lengthOverflow length) else .ok (kind, length)

/-- A payload that must be empty. -/
def ofEmpty (message : Message) (payload : Bytes) : Except CodecError Message :=
  if payload.isEmpty then .ok message else .error (.trailingBytes payload.length)

/-- The fields of an attestation. -/
def attestationDecoder : Decoder Message := do
  let signature ← Prefixed.decode maxField
  let key ← Prefixed.decode maxField
  return .attested ⟨⟨signature⟩, ⟨key⟩⟩

/-- The message of a kind with this payload. -/
def ofPayload (kind : MessageKind) (payload : Bytes) : Except CodecError Message :=
  match kind with
  | .identify => ofEmpty .identify payload
  | .declined => ofEmpty .declined payload
  | .ack => ofEmpty .ack payload
  | .identity => (Prefixed.decode maxField).complete payload |>.map fun key => .identity ⟨key⟩
  | .verifyTime => (Block.decode payload).map .verifyTime
  | .block => (Block.decode payload).map .block
  | .transaction => (Transaction.decode payload).map .transaction
  | .attested => attestationDecoder.complete payload
  | .reject =>
    (Prefixed.decode maxField).complete payload |>.map fun reason =>
      .reject (Utf8.decodeLossy reason)

/-- The message whose frame is the whole input. -/
def decode (input : Bytes) : Except CodecError Message :=
  match Bytes.splitExact headerLength input with
  | none => .error (.invalidField .shortFrame)
  | some (header, payload) =>
    match parseHeader header with
    | .error e => .error e
    | .ok (kind, length) =>
      if payload.length = length then ofPayload kind payload
      else .error (.invalidField (.payloadLength payload.length length))

/-! ### Streams -/

/-- What the front of a source of bytes holds. -/
inductive Received (σ : Type) where
  /-- A whole message, and what follows it. -/
  | message (message : Message) (rest : σ)
  /-- A frame that does not decode; nothing after it is looked at. -/
  | malformed (error : CodecError)
  /-- The source ends before a frame does. -/
  | cutOff
  deriving DecidableEq

/-- The first message of a source: the header, then as many bytes as it announces.  `read`
takes exactly so many bytes off the source, or nothing when it ends before. -/
def receiveBy {σ : Type} (read : Nat → σ → Option (Bytes × σ)) (source : σ) : Received σ :=
  match read headerLength source with
  | none => .cutOff
  | some (header, rest) =>
    match parseHeader header with
    | .error e => .malformed e
    | .ok (kind, length) =>
      match read length rest with
      | none => .cutOff
      | some (payload, rest) =>
        match ofPayload kind payload with
        | .ok message => .message message rest
        | .error e => .malformed e

/-- The first message of a stream that is there as a whole. -/
def receive (stream : Bytes) : Received Bytes := receiveBy Bytes.splitExact stream

end Message

end AttestedLedger
