/-
The reward of a block, which shrinks as more miners take part.
-/
import AttestedLedger.Params

namespace AttestedLedger

/-- A base reward and the factor each active miner lowers it by. -/
structure Reward where
  base : Float
  decay : Float

namespace Reward

/-- The reward that parameters ask for. -/
def ofParams (p : Params) : Reward := ⟨p.baseBlockReward, p.rewardDecay⟩

/-- The reward of the default parameters. -/
def standard : Reward := ofParams {}

/-- The share of the base that is paid when this many identities have mined. -/
def multiplier (r : Reward) (miners : UInt64) : Float := Float.pow r.decay miners.toFloat

/-- What the miner of a block is credited. -/
def ofBlock (r : Reward) (miners : UInt64) : Float := r.base * r.multiplier miners

end Reward

end AttestedLedger
