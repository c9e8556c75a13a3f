/-
Calls on peers: one connection, one request, one reply.

What the network does is data.  Dialling an address either fails or reaches a server,
which turns the bytes of the request into bytes of a reply and then closes the connection
or falls silent.  A call succeeds when those bytes begin with a message of a kind that
answers the request; everything else is a failure of this peer alone.
-/
import AttestedLedger.Message
import AttestedLedger.Peer.Address

namespace AttestedLedger

/-- Why a connection cannot be made or is lost. -/
inductive LinkError where
  | networkUnreachable
  | connectionRefused
  /-- The peer closed the connection inside a frame or before it. -/
  | closedEarly
  deriving DecidableEq, Repr

/-- The text shown for a link error. -/
def LinkError.message : LinkError → String
  | .networkUnreachable => "Network is unreachable (os error 101)"
  | .connectionRefused => "Connection refused (os error 111)"
  | .closedEarly => "early eof"

/-- Why a call on one peer gave nothing. -/
inductive PeerError where
  | unreachable (cause : LinkError)
  | timeout
  | malformed (error : CodecError)
  | unexpectedReply (kind : MessageKind)
  /-- The peer has not mined a block. -/
  | ineligible
  | declined
  | badSignature
  | rejected (reason : String)
  deriving DecidableEq

/-- The text shown for a failure of the peer at an address. -/
def PeerError.message (peer : Address) : PeerError → String
  | .unreachable cause => s!"peer {peer} unreachable: {cause.message}"
  | .timeout => s!"peer {peer} timed out"
  | .malformed error => s!"malformed reply: {error.message}"
  | .unexpectedReply kind => s!"unexpected {kind.title} reply"
  | .ineligible => s!"peer {peer} has not mined a block"
  | .declined => s!"peer {peer} declined the timestamp"
  | .badSignature => s!"attestation from {peer} does not verify"
  | .rejected reason => s!"peer rejected the message: {reason}"

/-- What a server sends back, and whether it then closes the connection. -/
structure ServerReply where
  bytes : Bytes
  closes : Bool

/-- The network as one host sees it. -/
structure Network where
  /-- Whether any interface is up.  Without one, no address can be dialled or listened on. -/
  up : Bool
  /-- The servers that can be reached, and what each answers to the bytes of a request. -/
  servers : List (Address × (Bytes → ServerReply))

namespace Network

/-- A host without a network. -/
def down : Network := ⟨false, []⟩

/-- The server at an address. -/
def dial (network : Network) (address : Address) : Except LinkError (Bytes → ServerReply) :=
  if !network.up then .error .networkUnreachable
  else
    match network.servers.lookup address with
    | some server => .ok server
    | none => .error .connectionRefused

/-- The bytes that reach the server at an address when a request is sent. -/
def delivered (network : Network) (address : Address) (request : Message) : Option Bytes :=
  match network.dial address with
  | .ok _ => some request.encode
  | .error _ => none

/-- Send one request and read one reply. -/
def call (network : Network) (address : Address) (request : Message) : Except PeerError Message :=
  match network.dial address with
  | .error cause => .error (.unreachable cause)
  | .ok server =>
    let reply := server request.encode
    match Message.receive reply.bytes with
    | .message message _ => .ok message
    | .malformed error => .error (.malformed error)
    | .cutOff => .error (if reply.closes then .unreachable .closedEarly else .timeout)

/-- A reply that must be an acknowledgement. -/
def expectAck : Message → Except PeerError Unit
  | .ack => .ok ()
  | .reject reason => .error (.rejected reason)
  | other => .error (.unexpectedReply other.kind)

/-- Ask a peer for its public key. -/
def identify (network : Network) (address : Address) : Except PeerError MinerKey := do
  match ← network.call address .identify with
  | .identity key => return key
  | other => throw (.unexpectedReply other.kind)

/-- Ask a peer to attest a block's timestamp. -/
def verifyTime (network : Network) (address : Address) (block : Block) :
    Except PeerError TimeVerdict := do
  match ← network.call address (.verifyTime block) with
  | .attested attestation => return .attested attestation
  | .declined => return .declined
  | other => throw (.unexpectedReply other.kind)

/-- Deliver a block. -/
def sendBlock (network : Network) (address : Address) (block : Block) : Except PeerError Unit := do
  expectAck (← network.call address (.block block))

/-- Deliver a transaction. -/
def sendTransaction (network : Network) (address : Address) (tx : Transaction) :
    Except PeerError Unit := do
  expectAck (← network.call address (.transaction tx))

end Network

end AttestedLedger
