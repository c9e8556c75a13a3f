/-
Driving a node among scripted peers.

Of all the orders in which things may happen, this is one: requests are asked in the order
of the peer list and answered at once, and those that hang are ended by the timeout when
nothing else is left to wait for.  An attempt is carried from event to event until it is
over or a condition on the world stops it.  Every loop counts down a number of events so
large that no run meets its end.
-/
import AttestedLedger.Simulation.Script

namespace AttestedLedger.Simulation

/-- More events than any run has. -/
def eventBound : Nat := 1000000000000

/-- The time an attempt is taken to last: far below the time between blocks. -/
def elapsed : Duration := .ofNanos64 1000000

/-- The answers of a request that hangs. -/
def timedOut : PeerAnswers := ⟨.error .timeout, .error .timeout⟩

/-- Ask the peers whose requests are under way and not yet asked. -/
def askAll (eligible : List MinerKey) (block : Block) :
    List Address → World → List (Option PeerAnswers) → World × List (Option PeerAnswers)
  | [], w, asked => (w, asked)
  | address :: rest, w, asked =>
    let (w, answers) := w.ask eligible block address
    askAll eligible block rest w (asked ++ [answers])

/-- Whether only requests that hang are under way. -/
def allHang (asked : List (Option PeerAnswers)) : Bool := asked.all Option.isNone

/-- The request that ends next: the first that is answered, or else the first of all. -/
def nextSlot (asked : List (Option PeerAnswers)) : Nat × PeerAnswers :=
  match asked.findIdx? Option.isSome with
  | some slot => (slot, (asked.getD slot none).getD timedOut)
  | none => (0, timedOut)

/-! ### One round by itself -/

/-- Carry a round to its end. -/
def driveRound (eligible : List MinerKey) (block : Block) :
    Nat → World → List (Option PeerAnswers) → Collection → World × AttestationRound
  | 0, w, _, c => (w, c.round)
  | fuel + 1, w, asked, c =>
    if c.finished then (w, c.round)
    else
      let (w, asked) := askAll eligible block (c.inFlight.drop asked.length) w asked
      let (slot, answers) := nextSlot asked
      driveRound eligible block fuel w (asked.eraseIdx slot)
        (c.complete slot (answers.judge eligible.contains block.payload))

/-- One round of attestations for a block on the node's chain. -/
def collect (w : World) (block : Block) : World × AttestationRound :=
  let s := w.node.state
  driveRound s.chain.miners block eventBound w []
    (.start s.requiredQuorum w.node.setup.fanout w.node.peers)

/-! ### One attempt -/

/-- The world after an event of its node. -/
def World.step (w : World) (event : NodeEvent) : World := { w with node := w.node.step event }

/-- Carry the node's attempt to its end, or to a stop, which is looked for whenever only a timeout
is left to wait for.  Each of `pending` is performed once the attempt searches, in place of a round
in which every nonce fails. -/
def driveAttempt (stop : World → Bool) :
    Nat → World → List (Option PeerAnswers) → List Action → World
  | 0, w, _, _ => w
  | fuel + 1, w, asked, pending =>
    match w.node.attempt with
    | none => w
    | some a =>
      match a.stage with
      | .finished _ => w
      | .calling _ => driveAttempt stop fuel (w.step (.mine .call)) [] pending
      | .gathering _ _ eligible c =>
        let (w, asked) := askAll eligible a.candidate (c.inFlight.drop asked.length) w asked
        if allHang asked && stop w then w
        else
          let (slot, answers) := nextSlot asked
          driveAttempt stop fuel (w.step (.mine (.answer slot answers))) (asked.eraseIdx slot) pending
      | .searching _ =>
        match pending with
        | [] => driveAttempt stop fuel (w.step (.mine (.search elapsed))) [] []
        | action :: rest =>
          let w := w.actAll [action]
          let w := { w with node := { w.node with attempt := some { a with stage := .resyncing } } }
          driveAttempt stop fuel w [] rest
      | _ => driveAttempt stop fuel (w.step (.mine (.proceed w.clock))) [] pending

/-- One attempt, with actions performed while it searches.  A block left over from an earlier
attempt is dropped. -/
def attemptOnce (w : World) (pending : List Action) : World :=
  let w := { w with node := { w.node with attempt := none } }
  driveAttempt (fun _ => false) eventBound (w.step (.begin w.clock)) [] pending

/-- Offer the mined block to the chain: the reason and the number of transactions put back if it
is rejected. -/
def acceptMined (w : World) (block : Block) : World × Except (Rejection × Nat) Unit :=
  (w.step (.acceptMined w.clock), (w.node.state.acceptMined w.clock block).2)

/-! ### The mining loop -/

/-- Mine block after block: accept, save and deliver each.  The loop ends at a stop, on a corrupt
chain, or when nothing is left to mine and so nothing more can happen. -/
def mineUntil (stop : World → Bool) : Nat → World → World
  | 0, w => w
  | fuel + 1, w =>
    if stop w then w
    else
      let w := driveAttempt stop eventBound (w.step (.begin w.clock)) [] []
      match w.node.attempt.bind Attempt.result? with
      | none => w
      | some (.ok block) =>
        match acceptMined w block with
        | (w, .ok ()) => mineUntil stop fuel ((w.step .save).deliver (.block block)).1
        | (w, .error _) => mineUntil stop fuel w
      | some (.error .poolDry) => w
      | some (.error e) => if e.isFatal then w else mineUntil stop fuel w

end AttestedLedger.Simulation
