/-
Decimal numerals and binary floating-point numbers.

A numeral is read the way fast readers of data formats read it: as many leading digits
as fit in 64 bits form an integer, which is then scaled by a power of ten in one
floating-point multiplication or division, so the result is exact for short numerals and
may be off in the last place for long ones.  In the other direction a number is taken
apart into an integer times a power of two, and rounded to a whole number of units with
ties to even.
-/

namespace AttestedLedger.Binary64

/-! ### Exact value -/

/-- A finite number as `mantissa * 2 ^ exponent`, with its sign. -/
structure Parts where
  negative : Bool
  mantissa : Nat
  exponent : Int

/-- How many fractions share an exponent. -/
def fractionCount : Nat := 0x10000000000000

/-- The parts of a number, unless it is infinite or no number. -/
def parts? (x : Float) : Option Parts :=
  let bits : Nat := x.toBits.toNat
  let negative := bits / fractionCount / 2048 == 1
  let field : Nat := bits / fractionCount % 2048
  let fraction : Nat := bits % fractionCount
  if field = 2047 then none
  else if field = 0 then some ⟨negative, fraction, -1074⟩
  else some ⟨negative, fractionCount + fraction, (field : Int) - 1075⟩

/-- `num / den` rounded to the nearest integer, a tie to the even one. -/
def roundDiv (num den : Nat) : Nat :=
  let q := num / den
  let twice := 2 * (num % den)
  if den < twice ∨ (twice = den ∧ q % 2 = 1) then q + 1 else q

/-- The magnitude times `scale`, rounded to an integer. -/
def Parts.scaled (p : Parts) (scale : Nat) : Nat :=
  if 0 ≤ p.exponent then (p.mantissa <<< p.exponent.toNat) * scale
  else roundDiv (p.mantissa * scale) (1 <<< (-p.exponent).toNat)

/-- A magnitude with a fixed number of places. -/
def Parts.fixed (p : Parts) (places : Nat) : String :=
  let unit := Nat.pow 10 places
  let units := p.scaled unit
  let fraction := toString (units % unit)
  let zeros := String.ofList (List.replicate (places - fraction.length) '0')
  let sign := if p.negative then "-" else ""
  s!"{sign}{units / unit}.{zeros}{fraction}"

/-- A number with a fixed number of places, a tie going to the even digit. -/
def fixed (places : Nat) (x : Float) : String :=
  match parts? x with
  | some p => p.fixed places
  | none => if x.isNaN then "NaN" else if x < 0 then "-inf" else "inf"

/-! ### Reading numerals -/

/-- A power of ten up to the largest that is finite. -/
def powerOfTen (n : Nat) : Float := Float.ofScientific 1 false n

/-- An integer below `2 ^ 64` scaled by a power of ten; nothing when the result is too large. -/
def scale (significand : Nat) (exponent : Int) : Option Float :=
  go (exponent.natAbs / 308 + 1) (UInt64.ofNat significand).toFloat exponent
where
  /-- Powers past 308 are applied in steps. -/
  go : Nat → Float → Int → Option Float
    | 0, f, _ => some f
    | fuel + 1, f, e =>
      if e.natAbs ≤ 308 then
        if 0 ≤ e then
          let g := f * powerOfTen e.natAbs
          if g.isInf then none else some g
        else some (f / powerOfTen e.natAbs)
      else if f == 0 then some f
      else if 0 ≤ e then none
      else go fuel (f / powerOfTen 308) (e + 308)

/-- Append digits to an integer while it stays below `2 ^ 64`: the integer, how many digits it
took, and whether one was left. -/
def take64 (start : Nat) : List Nat → Nat × Nat × Bool
  | [] => (start, 0, false)
  | d :: ds =>
    let n := start * 10 + d
    if UInt64.size ≤ n then (start, 0, true)
    else
      let (value, count, left) := take64 n ds
      (value, count + 1, left)

end AttestedLedger.Binary64
