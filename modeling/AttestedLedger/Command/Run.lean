/-
Carrying out a command on a machine.

A machine is what a command can see and change: files of parameters, directories with an
identity and an archive, the network, the clock, and a source for a fresh identity.  A
command leaves a directory and either prints lines or ends with an error.  Nothing is
printed before an error, but an identity that was made on the way to it is kept.
-/
import AttestedLedger.Command.Args
import AttestedLedger.Key.File
import AttestedLedger.Node.Basic
import AttestedLedger.Params.Reward

namespace AttestedLedger

/-- What a node keeps in its directory. -/
structure DataDir where
  identityFile : Option Bytes
  archive : Archive

/-- A directory in which nothing is kept yet. -/
def DataDir.fresh : DataDir := ⟨none, .empty⟩

/-- What a command runs on. -/
structure Machine where
  /-- Files of parameters by name. -/
  configs : List (String × Bytes)
  /-- Directories by name; one that is not listed can be created unless it is blocked. -/
  dataDirs : List (String × DataDir)
  blocked : List String
  network : Network
  clock : UInt64
  /-- The identity that is made when one is needed. -/
  fresh : Identity

/-- Why a command ended without doing what it should. -/
inductive CommandError where
  | config (error : Params.LoadError)
  | createDirectory
  | identity (error : Identity.LoadError)
  | corruptChain (error : ArchiveError)
  | loadFailed (error : ArchiveError)
  | badRecipient (error : Hex.Error)
  | sendFailed (peer : Address) (error : PeerError)

/-- The text shown for an error, but for those whose text is the file system's or a reader's. -/
def CommandError.message? : CommandError → Option String
  | config (.invalid fault) => some fault.message
  | config _ | createDirectory => none
  | identity error => error.message?
  | corruptChain error => some s!"Refusing to start on a corrupt chain: {error.message}"
  | loadFailed error => some s!"Failed to load chain: {error.message}"
  | badRecipient error => some s!"Invalid recipient key: {error.message}"
  | sendFailed peer error => some s!"Failed to submit to {peer}: {error.message peer}"

/-- Whether an error came up before the command itself had begun. -/
def CommandError.isEarly : CommandError → Bool
  | config _ | createDirectory => true
  | _ => false

/-- What is told of an error. -/
def CommandError.report (error : CommandError) : String :=
  let text := error.message?.getD <| match error with
    | config .unreadable => "Failed to read config"
    | config _ => "Invalid config"
    | createDirectory => "Failed to create data directory"
    | identity .unreadable => "Failed to read identity file"
    | _ => "Failed to deserialize identity"
  (if error.isEarly then "Error initializing: " else "Error: ") ++ text

/-- A directory as a command leaves it, and the lines it printed or its error. -/
abbrev CommandOutcome := DataDir × Except CommandError (List String)

namespace DataDir

/-! ### What commands work with -/

/-- The identity kept in the directory, or a fresh one, which is then kept. -/
def ownIdentity (dir : DataDir) (fresh : Identity) : Except CommandError (Identity × DataDir) :=
  match Identity.loadOrCreate dir.identityFile fresh with
  | .error e => .error (.identity e)
  | .ok (identity, none) => .ok (identity, dir)
  | .ok (identity, some file) => .ok (identity, { dir with identityFile := some file })

/-- The stored state, or one that holds only genesis. -/
def storedState (dir : DataDir) (params : Params) : Except CommandError NodeState :=
  match dir.archive.load params with
  | .ok (some state) => .ok state
  | .ok none => .ok (.start params)
  | .error e => .error (if e.isFatal then .corruptChain e else .loadFailed e)

/-! ### The commands -/

/-- What is shown of a stored chain. -/
def summary (params : Params) (s : NodeState) : List String :=
  let miners := s.chain.minerCount s.chain.height
  let multiplier := (Reward.ofParams params).multiplier (UInt64.ofNat miners)
  ["Chain Info:",
   s!"  Height: {s.chain.height}",
   s!"  Tip: {s.chain.tipDigest}",
   s!"  Pending transactions: {s.pool.pending.length}",
   s!"  Active miners: {miners}",
   s!"  Next difficulty: {s.nextDifficulty}",
   s!"  Reward multiplier: {Binary64.fixed 6 multiplier}",
   s!"  Verifier quorum: {s.requiredQuorum}"]

/-- Show the stored chain. -/
def showInfo (dir : DataDir) (params : Params) : CommandOutcome :=
  (dir, (dir.storedState params).map (summary params))

/-- Show the node's key. -/
def showIdentity (dir : DataDir) (fresh : Identity) : CommandOutcome :=
  match dir.ownIdentity fresh with
  | .error e => (dir, .error e)
  | .ok (identity, dir) => (dir, .ok [s!"Miner key: {identity.minerKey}"])

/-- What is shown when a node starts. -/
def greeting (node : Node) (mine : Bool) (port : UInt16) : List String :=
  [s!"Node {node.identity.minerKey} starting",
   s!"  Listening: {Address.anyInterface port}",
   s!"  Peers: {node.peers.length}",
   s!"  Mining: {mine}"]

/-- Start a node that stops before anything happens to it, as it does when its port is taken.  Its
state is saved all the same. -/
def runNode (dir : DataDir) (fresh : Identity) (params : Params) (mine : Bool) (port : UInt16)
    (peers : List Address) : CommandOutcome :=
  match dir.ownIdentity fresh with
  | .error e => (dir, .error e)
  | .ok (identity, dir) =>
    match dir.storedState params with
    | .error e => (dir, .error e)
    | .ok state =>
      let node := Node.ofState identity peers params state (some dir.archive)
      ({ dir with archive := node.save.archive.getD dir.archive },
        .ok (greeting node mine port ++ ["✓ State saved"]))

/-- What is shown of a submitted transaction. -/
def receipt (tx : Transaction) (peer : Address) : List String :=
  ["Transaction submitted:",
   s!"  Hash: {tx.digest}",
   s!"  Amount: {tx.amount}",
   s!"  Node: {peer}"]

/-- Submit a transaction of the node's own to a peer, which relays it. -/
def submitTo (dir : DataDir) (machine : Machine) (peer : Address) (recipient : String)
    (amount : UInt64) : CommandOutcome :=
  match Hex.decode recipient with
  | .error e => (dir, .error (.badRecipient e))
  | .ok recipient =>
    match dir.ownIdentity machine.fresh with
    | .error e => (dir, .error e)
    | .ok (identity, dir) =>
      let tx : Transaction := ⟨identity.minerKey, ⟨recipient⟩, amount, machine.clock⟩
      match machine.network.sendTransaction peer tx with
      | .error e => (dir, .error (.sendFailed peer e))
      | .ok () => (dir, .ok (receipt tx peer))

/-- Carry out a command in a directory. -/
def carryOut (dir : DataDir) (machine : Machine) (params : Params) : Command → CommandOutcome
  | .node mine port peers => dir.runNode machine.fresh params mine port peers
  | .info => dir.showInfo params
  | .identity => dir.showIdentity machine.fresh
  | .send peer recipient amount => dir.submitTo machine peer recipient amount

end DataDir

namespace Machine

/-- The parameters that an invocation asks for. -/
def paramsFor (machine : Machine) (invocation : Invocation) : Except CommandError Params :=
  match invocation.config with
  | none => .ok {}
  | some name =>
    match Params.load (machine.configs.lookup name) with
    | .ok params => .ok params
    | .error e => .error (.config e)

/-- The directory of an invocation, made if it is missing. -/
def dataDirFor (machine : Machine) (invocation : Invocation) : Except CommandError DataDir :=
  if machine.blocked.contains invocation.dataDir then .error .createDirectory
  else .ok ((machine.dataDirs.lookup invocation.dataDir).getD .fresh)

/-- The machine with another content of a directory. -/
def withDataDir (machine : Machine) (name : String) (dir : DataDir) : Machine :=
  { machine with dataDirs := (name, dir) :: machine.dataDirs.filter (·.1 != name) }

/-- Carry out an invocation.  Its parameters are read before its directory is touched. -/
def run (machine : Machine) (invocation : Invocation) :
    Machine × Except CommandError (List String) :=
  match machine.paramsFor invocation with
  | .error e => (machine, .error e)
  | .ok params =>
    match machine.dataDirFor invocation with
    | .error e => (machine, .error e)
    | .ok dir =>
      let (dir, result) := dir.carryOut machine params invocation.command
      (machine.withDataDir invocation.dataDir dir, result)

end Machine

end AttestedLedger
