/-
Values of the JSON data format.

A number keeps its digits, because whether it is an integer, and which floating-point
number it is, depends on how it was written and on who asks.  A string may escape half
of a surrogate pair; such a string stands in a document but has no text.  `fields?`
matches a value against the fields of a record: an object names them in any order, and
an array gives them in the order of their declaration.
-/
import AttestedLedger.Decimal.Binary64

namespace AttestedLedger.Json

/-- A number as it was written: sign, digits before and after the point, power of ten. -/
structure Numeral where
  negative : Bool
  whole : List Nat
  fraction : Option (List Nat)
  exponent : Option Int

namespace Numeral

/-- The number of a list of decimal digits. -/
def ofDigits (digits : List Nat) : Nat := digits.foldl (fun n d => 10 * n + d) 0

/-- The value of a number written as an unsigned integer below `2 ^ 64`. -/
def toUInt64? (n : Numeral) : Option UInt64 :=
  match n.negative, n.fraction, n.exponent with
  | false, none, none =>
    let value := ofDigits n.whole
    if value < UInt64.size then some (UInt64.ofNat value) else none
  | _, _, _ => none

/-- The floating-point value, unless it is too large. -/
def toFloat? (n : Numeral) : Option Float :=
  let (front, used, _) := Binary64.take64 0 n.whole
  let (significand, places, _) := Binary64.take64 front (n.fraction.getD [])
  let exponent : Int := (n.whole.length - used : Nat) - (places : Int) + n.exponent.getD 0
  (Binary64.scale significand exponent).map fun f => if n.negative then -f else f

end Numeral

/-- A value of the format. -/
inductive Value where
  | null
  | bool (b : Bool)
  | number (n : Numeral)
  /-- No text, when an escape stands for half a surrogate pair. -/
  | string (text : Option String)
  | array (items : List Value)
  | object (members : List (Option String × Value))

namespace Value

/-- The text of a string. -/
def text? : Value → Option String
  | string text => text
  | _ => none

/-- An unsigned integer below `2 ^ 64`. -/
def toUInt64? : Value → Option UInt64
  | number n => n.toUInt64?
  | _ => none

/-- A floating-point number. -/
def toFloat? : Value → Option Float
  | number n => n.toFloat?
  | _ => none

/-- The values of the members with this name. -/
def named (name : String) (members : List (Option String × Value)) : List Value :=
  members.filterMap fun (key, value) => if key = some name then some value else none

/-- The values of a record's fields, each present or not.  In an object other members are
ignored, but a name without text or a field given twice is refused; an array gives the fields
in order and must not give more than there are. -/
def fields? (names : List String) : Value → Option (List (Option Value))
  | object members =>
    if members.all (·.1.isSome) then
      names.mapM fun name =>
        match named name members with
        | [] => some none
        | [value] => some (some value)
        | _ => none
    else none
  | array items =>
    if items.length ≤ names.length then
      some (items.map some ++ List.replicate (names.length - items.length) none)
    else none
  | _ => none

end Value

end AttestedLedger.Json
