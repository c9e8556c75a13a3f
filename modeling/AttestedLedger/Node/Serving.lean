/-
Serving peers.

A node answers each request of a connection with one reply, in order, until the peer
hangs up or sends something that does not decode; the latter is answered with a refusal
and ends the connection.  Only a new transaction and an acceptable block change the state.
A new transaction is also passed on to the node's own peers, after it was acknowledged.
-/
import AttestedLedger.Node.Basic

namespace AttestedLedger

namespace Message

/-- Receiving a message consumes at least its header. -/
theorem length_lt_of_receive {stream rest : Bytes} {message : Message}
    (h : receive stream = .message message rest) : rest.length < stream.length := by
  simp only [receive, receiveBy] at h
  split at h
  · simp at h
  · next header body hheader =>
    have hfront := Bytes.length_of_splitExact hheader
    split at h
    · simp at h
    · next kind length _ =>
      split at h
      · simp at h
      · next payload tail hpayload =>
        have hback := Bytes.length_of_splitExact hpayload
        split at h
        · simp only [Received.message.injEq] at h
          obtain ⟨-, rfl⟩ := h
          simp only [headerLength] at hfront
          omega
        · simp at h

end Message

/-- What a node sends in answer to one request, and a transaction to pass on. -/
structure Answer where
  reply : Message
  relay : Option Transaction

namespace Node

/-- Answer one request. -/
def handle (node : Node) (now : UInt64) : Message → Node × Answer
  | .identify => (node, ⟨.identity node.identity.minerKey, none⟩)
  | .verifyTime block =>
    match node.state.attest node.identity now block with
    | .attested attestation => (node, ⟨.attested attestation, none⟩)
    | .declined => (node, ⟨.declined, none⟩)
  | .transaction tx =>
    let (state, outcome) := node.state.submit tx
    let node := { node with state }
    match outcome with
    | .added => (node.save, ⟨.ack, some tx⟩)
    | .ignored _ => (node, ⟨.ack, none⟩)
  | .block block =>
    match node.state.acceptBlock now block with
    | .ok state => ({ node with state }.save, ⟨.ack, none⟩)
    | .error e => (node, ⟨.reject e.message, none⟩)
  | other => (node, ⟨.reject s!"unexpected {other.kind.title}", none⟩)

/-- The refusal of a request that does not decode. -/
def refusal (error : CodecError) : Message := .reject s!"malformed reply: {error.message}"

/-- Answer the requests of a stream, up to its end or to the first that does not decode.  The
clock is read once for each request. -/
def serve (node : Node) (clock : Nat → UInt64) (stream : Bytes) : Node × List Answer :=
  match h : Message.receive stream with
  | .cutOff => (node, [])
  | .malformed error => (node, [⟨refusal error, none⟩])
  | .message request rest =>
    have : rest.length < stream.length := Message.length_lt_of_receive h
    let (node, answer) := node.handle (clock 0) request
    let (node, answers) := serve node (fun turn => clock (turn + 1)) rest
    (node, answer :: answers)
termination_by stream.length

/-- Answer the requests of a stream that arrives all at once. -/
def converse (node : Node) (now : UInt64) (stream : Bytes) : Node × List Answer :=
  node.serve (fun _ => now) stream

end Node

end AttestedLedger
