/-
The parameters that the nodes of a ledger agree on, and those of one node's miner.

Every parameter has a default.  A configuration overrides some of them, and `validate`
refuses values that would stall or break a node; a value built by other means is not
checked, so the functions that use a parameter guard themselves against zero.
-/
import AttestedLedger.Duration
import AttestedLedger.Json.Reader
import AttestedLedger.Text.Utf8

namespace AttestedLedger

/-- Consensus and mining parameters. -/
structure Params where
  /-- The difficulty of the imagined predecessor of the first mined block. -/
  initialDifficulty : UInt64 := 50000
  minimumDifficulty : UInt64 := 50000
  maximumDifficulty : UInt64 := 0xFFFFFFFFFFFFFFFF
  /-- The mean time between blocks that retargeting aims for. -/
  targetBlockTime : Duration := .ofSeconds 60
  /-- The largest factor by which one block may change the difficulty. -/
  maxRetargetStep : UInt64 := 4
  /-- A quorum is one verifier for this many miners, rounded up. -/
  quorumDivisor : UInt64 := 5
  baseBlockReward : Float := 1
  /-- The factor by which each further miner lowers the reward. -/
  rewardDecay : Float := 0.95
  /-- Nonces tried between two looks at the pool. -/
  noncesPerRound : UInt64 := 10000
  /-- Nonces tried between two looks at the tip. -/
  cancelCheckInterval : UInt64 := 1024
  peerTimeout : Duration := .ofSeconds 5
  /-- The most attestation requests under way at once. -/
  attestationFanout : UInt64 := 8
  /-- How far a timestamp may run ahead of the clock. -/
  maxFutureDrift : Duration := .ofSeconds 7200
  /-- The pause after an attempt found no transactions. -/
  poolDryBackoff : Duration := .ofSeconds 5

namespace Params

instance : Inhabited Params := ⟨{}⟩

/-! ### Validation -/

/-- Why parameters are refused. -/
inductive Invalid where
  | zeroDifficulty
  | crossedDifficulties
  | zeroStep
  | zeroDivisor
  | zeroBlockTime
  | decayOutOfRange
  | zeroRound
  | zeroFanout
  deriving DecidableEq, Repr

/-- The text shown for a refusal. -/
def Invalid.message : Invalid → String
  | .zeroDifficulty => "difficulty floor and initial difficulty must be positive"
  | .crossedDifficulties => "minimum_difficulty exceeds maximum_difficulty"
  | .zeroStep => "max_retarget_step must be positive"
  | .zeroDivisor => "quorum_divisor must be positive"
  | .zeroBlockTime => "target_block_time must be positive"
  | .decayOutOfRange => "reward_decay must lie strictly between 0 and 1"
  | .zeroRound => "nonces_per_round and cancel_check_interval must be positive"
  | .zeroFanout => "attestation_fanout must be positive"

/-- The first fault of the parameters, if they have one. -/
def fault? (p : Params) : Option Invalid :=
  if p.minimumDifficulty = 0 ∨ p.initialDifficulty = 0 then some .zeroDifficulty
  else if p.minimumDifficulty > p.maximumDifficulty then some .crossedDifficulties
  else if p.maxRetargetStep = 0 then some .zeroStep
  else if p.quorumDivisor = 0 then some .zeroDivisor
  else if p.targetBlockTime = .zero then some .zeroBlockTime
  else if !(p.rewardDecay > 0 && p.rewardDecay < 1) then some .decayOutOfRange
  else if p.noncesPerRound = 0 ∨ p.cancelCheckInterval = 0 then some .zeroRound
  else if p.attestationFanout = 0 then some .zeroFanout
  else none

/-! ### Configuration files -/

/-- The names of the parameters in a configuration, in the order an array gives them. -/
def fieldNames : List String :=
  ["initial_difficulty", "minimum_difficulty", "maximum_difficulty", "target_block_time",
   "max_retarget_step", "quorum_divisor", "base_block_reward", "reward_decay", "nonces_per_round",
   "cancel_check_interval", "peer_timeout", "attestation_fanout", "max_future_drift",
   "pool_dry_backoff"]

/-- A span given as a number of seconds. -/
def durationOf? (value : Json.Value) : Option Duration := do
  Duration.ofFloatSeconds? (← value.toFloat?)

/-- One parameter replaced by the value of its field. -/
def set? (name : String) (value : Json.Value) (p : Params) : Option Params :=
  match name with
  | "initial_difficulty" => do return { p with initialDifficulty := ← value.toUInt64? }
  | "minimum_difficulty" => do return { p with minimumDifficulty := ← value.toUInt64? }
  | "maximum_difficulty" => do return { p with maximumDifficulty := ← value.toUInt64? }
  | "target_block_time" => do return { p with targetBlockTime := ← durationOf? value }
  | "max_retarget_step" => do return { p with maxRetargetStep := ← value.toUInt64? }
  | "quorum_divisor" => do return { p with quorumDivisor := ← value.toUInt64? }
  | "base_block_reward" => do return { p with baseBlockReward := ← value.toFloat? }
  | "reward_decay" => do return { p with rewardDecay := ← value.toFloat? }
  | "nonces_per_round" => do return { p with noncesPerRound := ← value.toUInt64? }
  | "cancel_check_interval" => do return { p with cancelCheckInterval := ← value.toUInt64? }
  | "peer_timeout" => do return { p with peerTimeout := ← durationOf? value }
  | "attestation_fanout" => do return { p with attestationFanout := ← value.toUInt64? }
  | "max_future_drift" => do return { p with maxFutureDrift := ← durationOf? value }
  | "pool_dry_backoff" => do return { p with poolDryBackoff := ← durationOf? value }
  | _ => none

/-- Replace the parameters whose fields are present. -/
def setAll : List (String × Option Json.Value) → Params → Option Params
  | [], p => some p
  | (_, none) :: rest, p => setAll rest p
  | (name, some value) :: rest, p => do setAll rest (← set? name value p)

/-- The parameters of a configuration: its values where present, defaults elsewhere. -/
def ofJson? (value : Json.Value) : Option Params := do
  setAll (fieldNames.zip (← value.fields? fieldNames)) {}

/-- Why a configuration file gives no parameters. -/
inductive LoadError where
  /-- The file is missing or is not text. -/
  | unreadable
  /-- The text is not a configuration. -/
  | unparsable
  | invalid (fault : Invalid)
  deriving DecidableEq, Repr

/-- The parameters of a file's content; nothing stands for a missing file. -/
def load (file : Option Bytes) : Except LoadError Params :=
  match file.bind Utf8.decode? with
  | none => .error .unreadable
  | some text =>
    match (Json.parse text).bind ofJson? with
    | none => .error .unparsable
    | some p =>
      match p.fault? with
      | some fault => .error (.invalid fault)
      | none => .ok p

end Params

end AttestedLedger
