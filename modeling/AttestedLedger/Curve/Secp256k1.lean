/-
The curve y² = x³ + 7 over a prime field of 256 bits.

Points are kept in projective form (x/z², y/z³), with z = 0 for the point at infinity,
so that adding and doubling need no division; one inversion at the end gives the affine
point.  Numbers are natural numbers reduced after every operation, and exponents and
scalars are consumed bit by bit, so every loop is bounded by the 256 bits of its input.
-/
import AttestedLedger.Bytes

namespace AttestedLedger.Secp256k1

/-- The field's prime. -/
def fieldPrime : Nat := 0xFFFFFFFFFFFFFFFFFFFFFFFFFFFFFFFFFFFFFFFFFFFFFFFFFFFFFFFEFFFFFC2F

/-- The number of points of the curve, a prime. -/
def groupOrder : Nat := 0xFFFFFFFFFFFFFFFFFFFFFFFFFFFFFFFEBAAEDCE6AF48A03BBFD25E8CD0364141

/-! ### Arithmetic modulo a number -/

/-- `x` to the power given by the low `bits` bits of `e`, modulo `m`. -/
def powMod (m x : Nat) : Nat → Nat → Nat
  | 0, _ => 1
  | bits + 1, e =>
    let root := powMod m (x * x % m) bits (e / 2)
    if e % 2 = 1 then x * root % m else root

/-- The inverse modulo a prime of at most 256 bits. -/
def inverse (m x : Nat) : Nat := powMod m (x % m) 256 (m - 2)

def mul (x y : Nat) : Nat := x * y % fieldPrime
def add (x y : Nat) : Nat := (x + y) % fieldPrime
def sub (x y : Nat) : Nat := (x + (fieldPrime - y)) % fieldPrime

/-! ### Points -/

/-- A point (x/z², y/z³); infinity has z = 0. -/
structure Point where
  x : Nat
  y : Nat
  z : Nat

/-- A point other than infinity. -/
structure Affine where
  x : Nat
  y : Nat
  deriving DecidableEq

namespace Point

def infinity : Point := ⟨1, 1, 0⟩

def ofAffine (p : Affine) : Point := ⟨p.x, p.y, 1⟩

/-- A point added to itself. -/
def double (p : Point) : Point :=
  if p.z = 0 then infinity
  else
    let a := mul p.x p.x
    let b := mul p.y p.y
    let c := mul b b
    let d := mul 4 (mul p.x b)
    let e := mul 3 a
    let x := sub (mul e e) (mul 2 d)
    ⟨x, sub (mul e (sub d x)) (mul 8 c), mul 2 (mul p.y p.z)⟩

/-- The sum of two points. -/
def plus (p q : Point) : Point :=
  if p.z = 0 then q
  else if q.z = 0 then p
  else
    let pz2 := mul p.z p.z
    let qz2 := mul q.z q.z
    let u1 := mul p.x qz2
    let u2 := mul q.x pz2
    let s1 := mul p.y (mul q.z qz2)
    let s2 := mul q.y (mul p.z pz2)
    if u1 = u2 then if s1 = s2 then double p else infinity
    else
      let h := sub u2 u1
      let r := sub s2 s1
      let h2 := mul h h
      let h3 := mul h h2
      let v := mul u1 h2
      let x := sub (sub (mul r r) h3) (mul 2 v)
      ⟨x, sub (mul r (sub v x)) (mul s1 h3), mul h (mul p.z q.z)⟩

/-- The multiple of `p` by the low `bits` bits of `k`. -/
def times : Nat → Nat → Point → Point
  | 0, _, _ => infinity
  | bits + 1, k, p =>
    let rest := times bits (k / 2) (double p)
    if k % 2 = 1 then plus p rest else rest

/-- The affine point, unless it is infinity. -/
def toAffine (p : Point) : Option Affine :=
  if p.z = 0 then none
  else
    let inv := inverse fieldPrime p.z
    let inv2 := mul inv inv
    some ⟨mul p.x inv2, mul p.y (mul inv inv2)⟩

end Point

/-- The point whose multiples are all points of the curve. -/
def generator : Affine where
  x := 0x79BE667EF9DCBBAC55A06295CE870B07029BFCDB2DCE28D959F2815B16F81798
  y := 0x483ADA7726A3C4655DA4FBFC0E1108A8FD17B448A68554199C47D08FFB10D4B8

/-- The multiple of a point by a scalar of 256 bits. -/
def scale (k : Nat) (p : Affine) : Point := Point.times 256 k (Point.ofAffine p)

/-! ### Keys as bytes -/

/-- The right side of the curve's equation. -/
def curveRight (x : Nat) : Nat := add (mul x (mul x x)) 7

/-- Whether a pair satisfies the curve's equation. -/
def Affine.onCurve (p : Affine) : Bool := mul p.y p.y = curveRight p.x

/-- A square root, which the field has for exactly half of its nonzero elements. -/
def squareRoot? (a : Nat) : Option Nat :=
  let root := powMod fieldPrime a 256 ((fieldPrime + 1) / 4)
  if mul root root = a then some root else none

/-- The point with this abscissa and this parity of its ordinate. -/
def liftX (x : Nat) (odd : Bool) : Option Affine :=
  if x < fieldPrime then
    (squareRoot? (curveRight x)).map fun y =>
      ⟨x, if (y % 2 = 1) = (odd = true) then y else sub 0 y⟩
  else none

/-- The point with these coordinates, if there is one. -/
def ofCoordinates (x y : Nat) : Option Affine :=
  let p : Affine := ⟨x, y⟩
  if x < fieldPrime ∧ y < fieldPrime ∧ p.onCurve then some p else none

/-- A point in one of its three written forms: 33 bytes with the parity of the ordinate in the
first, 65 bytes with both coordinates behind 4, or the same behind 6 or 7 by the ordinate's
parity. -/
def parsePoint (bytes : Bytes) : Option Affine :=
  match bytes with
  | [] => none
  | tag :: body =>
    if body.length = 32 then
      if tag = 2 ∨ tag = 3 then liftX (Bytes.bigEndianValue body) (tag = 3) else none
    else if body.length = 64 then
      let y := Bytes.bigEndianValue (body.drop 32)
      if tag = 4 ∨ (tag = 6 ∧ y % 2 = 0) ∨ (tag = 7 ∧ y % 2 = 1) then
        ofCoordinates (Bytes.bigEndianValue (body.take 32)) y
      else none
    else none

/-- The 33-byte form of a point. -/
def Affine.compressed (p : Affine) : Bytes :=
  (if p.y % 2 = 0 then 2 else 3) :: Bytes.bigEndian 32 p.x

end AttestedLedger.Secp256k1
