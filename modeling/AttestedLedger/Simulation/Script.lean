/-
Peers that follow a script.

A scripted peer has an identity of its own and a second one to pretend with.  Its script
says what it identifies as, what it replies to each request to attest a timestamp and
which actions it performs on the asking node's state before it replies, and what becomes
of a delivery to it.  A request may also hang, which the asking side ends by its timeout.
-/
import AttestedLedger.Node.Delivery
import AttestedLedger.Node.Step
import AttestedLedger.Simulation.Desk

namespace AttestedLedger.Simulation

/-- What a peer identifies as. -/
inductive IdentifyScript where
  | own
  | other
  | unreachable
  | hang
  deriving DecidableEq

/-- What a peer replies to a request to attest a block. -/
inductive VerifyScript where
  /-- Its signature over the block's payload. -/
  | honest
  | decline
  | unreachable
  | unexpected
  | hang
  /-- Its signature over something else. -/
  | forge
  /-- The other identity's attestation. -/
  | wrongKey
  /-- Its own signature under the other key. -/
  | wrongClaim
  /-- The other's signature under its own key. -/
  | wrongSigner
  deriving DecidableEq

/-- What becomes of a delivery. -/
inductive SendScript where
  | accept
  | unreachable
  | hang
  | reject
  deriving DecidableEq

/-- A peer and its script.  The last entry for attesting is repeated. -/
structure PeerScript where
  own : Identity
  other : Identity
  identify : IdentifyScript
  verify : List (VerifyScript × List Action)
  send : SendScript

/-- A delivery that was attempted. -/
structure Attempted where
  peer : Nat
  parcel : Parcel

/-- A node among scripted peers. -/
structure World where
  node : Node
  desk : Desk
  scripts : List PeerScript
  clock : UInt64
  /-- How often each peer was asked to identify and to attest. -/
  calls : List (Nat × Nat)
  /-- How many requests hang. -/
  hung : Nat
  sent : List Attempted
  /-- The results of actions, oldest first. -/
  events : List Result

namespace World

/-- A node, its scripted peers and nothing done yet. -/
def start (node : Node) (scripts : List PeerScript) (clock : UInt64) : World :=
  ⟨node, .empty, scripts, clock, scripts.map fun _ => (0, 0), 0, [], []⟩

/-- The address of a scripted peer. -/
def addressOf (peer : Nat) : Address := .loopback (UInt16.ofNat (peer + 1))

/-- The scripted peer at an address. -/
def peerAt (address : Address) : Nat := address.port.toNat - 1

/-- The script of a peer. -/
def script? (w : World) (peer : Nat) : Option PeerScript := w.scripts[peer]?

/-- Perform one action on the node's state. -/
def act (w : World) (action : Action) : World × Result :=
  let (state, desk, result) := perform w.clock w.node.state w.desk action
  ({ w with node := { w.node with state }, desk }, result)

/-- Perform actions and keep their results. -/
def actAll (w : World) (actions : List Action) : World :=
  actions.foldl (fun w action =>
    let (w, result) := w.act action
    { w with events := w.events ++ [result] }) w

/-- Count one more request that hangs. -/
def hang (w : World) : World := { w with hung := w.hung + 1 }

/-- The attestation of an identity, under a key, over a payload. -/
def attestation (signer : Identity) (key : MinerKey) (payload : Bytes) : Except PeerError TimeVerdict :=
  .ok (.attested ⟨signer.sign payload, key⟩)

/-- What a scripted reply is; nothing for one that never comes. -/
def verdictOf (script : PeerScript) (block : Block) :
    VerifyScript → Option (Except PeerError TimeVerdict)
  | .honest => some (attestation script.own script.own.minerKey block.payload)
  | .decline => some (.ok .declined)
  | .unreachable => some (.error (.unreachable .connectionRefused))
  | .unexpected => some (.error (.unexpectedReply .ack))
  | .hang => none
  | .forge => some (attestation script.own script.own.minerKey (Utf8.encode "not the block"))
  | .wrongKey => some (attestation script.other script.other.minerKey block.payload)
  | .wrongClaim => some (attestation script.own script.other.minerKey block.payload)
  | .wrongSigner => some (attestation script.other script.own.minerKey block.payload)

/-- What a peer identifies as; nothing for an answer that never comes. -/
def identityOf (script : PeerScript) : Option (Except PeerError MinerKey) :=
  match script.identify with
  | .own => some (.ok script.own.minerKey)
  | .other => some (.ok script.other.minerKey)
  | .unreachable => some (.error (.unreachable .connectionRefused))
  | .hang => none

/-- Ask a peer to attest: its turn in the script, its actions, its reply. -/
def askVerdict (w : World) (peer : Nat) (script : PeerScript) (block : Block) :
    World × Option (Except PeerError TimeVerdict) :=
  let turn := (w.calls.getD peer (0, 0)).2
  let w := { w with calls := w.calls.modify peer fun (i, v) => (i, v + 1) }
  let (reply, actions) := script.verify.getD (min turn (script.verify.length - 1)) (.honest, [])
  let w := w.actAll actions
  match verdictOf script block reply with
  | some verdict => (w, some verdict)
  | none => (w.hang, none)

/-- Ask a peer for everything a round wants of it; nothing for a request that hangs. -/
def ask (w : World) (eligible : List MinerKey) (block : Block) (address : Address) :
    World × Option PeerAnswers :=
  let peer := peerAt address
  match w.script? peer with
  | none => (w, some ⟨.error (.unreachable .connectionRefused), .error .timeout⟩)
  | some script =>
    let w := { w with calls := w.calls.modify peer fun (i, v) => (i + 1, v) }
    match identityOf script with
    | none => (w.hang, none)
    | some identity =>
      match identity with
      | .error e => (w, some ⟨.error e, .error .timeout⟩)
      | .ok key =>
        if eligible.contains key then
          let (w, verdict) := w.askVerdict peer script block
          (w, verdict.map fun verdict => ⟨.ok key, verdict⟩)
        else (w, some ⟨.ok key, .error .timeout⟩)

/-- What becomes of a delivery; nothing for one that hangs. -/
def deliveryOf : SendScript → Option (Except PeerError Unit)
  | .accept => some (.ok ())
  | .unreachable => some (.error (.unreachable .connectionRefused))
  | .reject => some (.error (.rejected "scripted"))
  | .hang => none

/-- Deliver to every peer of the node.  Deliveries that hang end last. -/
def deliver (w : World) (parcel : Parcel) : World × DeliveryReport :=
  let outcome (address : Address) : Option (Except PeerError Unit) :=
    match w.script? (peerAt address) with
    | some script => deliveryOf script.send
    | none => some (.error (.unreachable .connectionRefused))
  let peers := w.node.peers
  let prompt := peers.filterMap fun address => (outcome address).map (address, ·)
  let late := peers.filter fun address => (outcome address).isNone
  let outcomes := prompt ++ late.map fun address => (address, .error .timeout)
  ({ w with
      hung := w.hung + late.length
      sent := w.sent ++ peers.map fun address => ⟨peerAt address, parcel⟩ },
    .ofOutcomes outcomes)

end World

end AttestedLedger.Simulation
