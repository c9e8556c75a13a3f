/-
Retargeting: the difficulty of the next block from the last one.

The difficulty moves in proportion to how the search's time compares with the time aimed
for, by no more than a fixed factor up or down, and stays between a floor and a ceiling.
A search that took no time counts as the largest step up.  Products are formed in 128-bit
words that stay at their largest value instead of wrapping.
-/
import AttestedLedger.Params

namespace AttestedLedger

/-- What retargeting needs of the parameters, with zeros replaced and bounds in order. -/
structure Retarget where
  targetBlockTime : Duration
  initial : UInt64
  minimum : UInt64
  maximum : UInt64
  maxStep : UInt64

namespace Retarget

/-- The retargeting that parameters ask for. -/
def ofParams (p : Params) : Retarget where
  targetBlockTime := p.targetBlockTime
  initial := p.initialDifficulty
  minimum := max p.minimumDifficulty 1
  maximum := max p.maximumDifficulty (max p.minimumDifficulty 1)
  maxStep := max p.maxRetargetStep 1

/-- The largest number of 128 bits. -/
def wordMax : Nat := 0xFFFFFFFFFFFFFFFFFFFFFFFFFFFFFFFF

/-- A product that stays at the largest 128-bit number. -/
def saturatingMul (x y : Nat) : Nat := min (x * y) wordMax

/-- A number moved into an interval. -/
def clamp (x lo hi : Nat) : Nat := if x < lo then lo else if hi < x then hi else x

/-- The difficulty after a block of difficulty `previous` that took `time`. -/
def next (r : Retarget) (time : Duration) (previous : UInt64) : UInt64 :=
  let start := max previous.toNat 1
  let upper := saturatingMul start r.maxStep.toNat
  let lower := max (start / r.maxStep.toNat) 1
  let scaled :=
    if time.nanos = 0 then upper
    else clamp (saturatingMul start r.targetBlockTime.nanos / time.nanos) lower upper
  UInt64.ofNat (clamp scaled r.minimum.toNat r.maximum.toNat)

/-- The time imagined for the predecessor of the first mined block. -/
def bootstrapTime : Duration := .ofSeconds 60

/-- The difficulty of the first mined block. -/
def first (r : Retarget) : UInt64 := r.next bootstrapTime r.initial

end Retarget

end AttestedLedger
