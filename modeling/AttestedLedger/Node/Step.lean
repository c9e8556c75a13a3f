/-
Everything that can happen to a node, one event at a time.

Peers submit transactions and offer blocks, the miner begins an attempt and carries it
through, a mined block is offered to the node's own chain, and the state is saved.  Each
event is one stretch of work on the state that nothing else comes between, so a run of a
node is a list of events, and every interleaving of its tasks is such a list.
-/
import AttestedLedger.Node.Basic

namespace AttestedLedger

/-- One thing that happens to a node. -/
inductive NodeEvent where
  /-- A transaction arrives. -/
  | submit (tx : Transaction)
  /-- A block arrives from a peer. -/
  | offer (now : UInt64) (block : Block)
  /-- The miner begins an attempt. -/
  | begin (now : UInt64)
  /-- The attempt under way goes on. -/
  | mine (event : AttemptEvent)
  /-- The block of the attempt that ended is offered to the chain. -/
  | acceptMined (now : UInt64)
  | save

namespace Node

/-- The finished block that waits to be accepted. -/
def minedBlock? (node : Node) : Option Block :=
  match node.attempt with
  | none => none
  | some attempt =>
    match attempt.result? with
    | some (.ok block) => some block
    | _ => none

/-- Whether a new attempt may begin: none is under way and no block waits. -/
def mayBegin (node : Node) : Bool :=
  match node.attempt with
  | none => true
  | some attempt =>
    match attempt.result? with
    | some (.error _) => true
    | _ => false

/-- The node after an event.  An event that does not fit changes nothing. -/
def step (node : Node) : NodeEvent → Node
  | .submit tx => { node with state := (node.state.submit tx).1 }
  | .offer now block =>
    match node.state.acceptBlock now block with
    | .ok state => { node with state }
    | .error _ => node
  | .begin now =>
    if node.mayBegin then
      let (state, attempt) := Attempt.start node.setup node.state now
      { node with state, attempt := some attempt }
    else node
  | .mine event =>
    match node.attempt with
    | none => node
    | some attempt =>
      let (state, attempt) := attempt.step node.setup node.state event
      { node with state, attempt := some attempt }
  | .acceptMined now =>
    match node.minedBlock? with
    | none => node
    | some block => { node with state := (node.state.acceptMined now block).1, attempt := none }
  | .save => node.save

/-- The node after a list of events. -/
def run (node : Node) (events : List NodeEvent) : Node := events.foldl step node

end Node

end AttestedLedger
