/-
Spans of time.

A span is a whole number of nanoseconds, and its seconds fit in 64 bits.  On the wire a
span is a 64-bit count of nanoseconds, in which longer spans are written as the largest
count.  In configuration a span is a floating-point number of seconds, taken to the
nearest nanosecond.
-/
import AttestedLedger.Decimal.Binary64

namespace AttestedLedger

/-- The number of nanoseconds that no span reaches. -/
def Duration.bound : Nat := UInt64.size * 1000000000

/-- A span of time. -/
structure Duration where
  nanos : Nat
  inRange : nanos < Duration.bound
  deriving DecidableEq

namespace Duration

/-- No time at all. -/
def zero : Duration := ⟨0, by decide⟩

instance : Inhabited Duration := ⟨zero⟩

/-- The span of `nanos` nanoseconds, if it is in range. -/
def ofNanos? (nanos : Nat) : Option Duration :=
  if h : nanos < bound then some ⟨nanos, h⟩ else none

/-- The span of a 64-bit count of nanoseconds. -/
def ofNanos64 (nanos : UInt64) : Duration :=
  ⟨nanos.toNat, Nat.lt_of_lt_of_le nanos.toNat_lt (by decide)⟩

/-- The span of a 32-bit count of seconds. -/
def ofSeconds (seconds : UInt32) : Duration :=
  ⟨seconds.toNat * 1000000000, by have := seconds.toNat_lt; simp only [bound, UInt64.size]; omega⟩

/-- Whole seconds. -/
def seconds (d : Duration) : Nat := d.nanos / 1000000000

/-- Nanoseconds past the last whole second. -/
def subsecond (d : Duration) : Nat := d.nanos % 1000000000

/-- The 64-bit count of nanoseconds, which stays at its largest value for longer spans. -/
def toNanos64 (d : Duration) : UInt64 := UInt64.ofNat (min d.nanos (UInt64.size - 1))

/-- The span of a floating-point number of seconds, to the nearest nanosecond and a tie to the
even one.  Negative numbers, infinities and spans out of range are refused. -/
def ofFloatSeconds? (seconds : Float) : Option Duration :=
  match Binary64.parts? seconds with
  | none => none
  | some parts =>
    if parts.negative && parts.mantissa != 0 then none else ofNanos? (parts.scaled 1000000000)

end Duration

end AttestedLedger
