/-
Reading the JSON data format.

The grammar is the strict one: four blank characters, no comments, no leading zeros, no
raw control characters in strings, and nothing but blanks after the value.  Nesting is
not limited.  Each function takes a bound on the depth of its recursion; a document of n
characters never needs more than n steps, because every step consumes one.
-/
import AttestedLedger.Json.Value

namespace AttestedLedger.Json

/-! ### Blanks, digits and numbers -/

/-- The characters that may stand between tokens. -/
def isBlank (c : Char) : Bool := c = ' ' || c = '\n' || c = '\t' || c = '\r'

/-- The input without leading blanks. -/
def skipBlanks (input : List Char) : List Char := input.dropWhile isBlank

/-- The value of a decimal digit. -/
def digitOf (c : Char) : Nat := c.toNat - '0'.toNat

/-- The leading digits and what follows them. -/
def digits (input : List Char) : List Nat × List Char :=
  ((input.takeWhile Char.isDigit).map digitOf, input.dropWhile Char.isDigit)

/-- The power of ten after a number, if there is one. -/
def exponentPart (input : List Char) : Option (Option Int × List Char) :=
  match input with
  | e :: rest =>
    if e = 'e' || e = 'E' then
      let (negative, rest) := match rest with
        | '-' :: rest => (true, rest)
        | '+' :: rest => (false, rest)
        | rest => (false, rest)
      match digits rest with
      | ([], _) => none
      | (ds, rest) =>
        let value : Int := Numeral.ofDigits ds
        some (some (if negative then -value else value), rest)
    else some (none, input)
  | [] => some (none, [])

/-- The digits after the point, if there is one. -/
def fractionPart (input : List Char) : Option (Option (List Nat) × List Char) :=
  match input with
  | '.' :: rest =>
    match digits rest with
    | ([], _) => none
    | (ds, rest) => some (some ds, rest)
  | _ => some (none, input)

/-- A number; a zero in front of another digit is refused. -/
def numeral (negative : Bool) (input : List Char) : Option (Value × List Char) := do
  let (whole, rest) := digits input
  if whole.isEmpty || (whole.head? == some 0 && whole.length != 1) then none
  let (fraction, rest) ← fractionPart rest
  let (exponent, rest) ← exponentPart rest
  return (.number { negative, whole, fraction, exponent }, rest)

/-! ### Strings -/

/-- The value of four hexadecimal digits. -/
def hex4 : List Char → Option (Nat × List Char)
  | a :: b :: c :: d :: rest => do
    let value (x : Char) : Option Nat :=
      if x.isDigit then some (digitOf x)
      else if 'a' ≤ x && x ≤ 'f' then some (x.toNat - 87)
      else if 'A' ≤ x && x ≤ 'F' then some (x.toNat - 55)
      else none
    return (((← value a) * 16 + (← value b)) * 256 + (← value c) * 16 + (← value d), rest)
  | _ => none

/-- The character of a one-letter escape. -/
def shortEscape (c : Char) : Option Char :=
  match c with
  | '"' => some '"'
  | '\\' => some '\\'
  | '/' => some '/'
  | 'b' => some '\x08'
  | 'f' => some '\x0c'
  | 'n' => some '\n'
  | 'r' => some '\r'
  | 't' => some '\t'
  | _ => none

/-- A code unit written by an escape, joined with its other half when it is the first half of a
surrogate pair.  A half alone gives no character. -/
def unicodeEscape (input : List Char) : Option (Option Char × List Char) := do
  let (unit, rest) ← hex4 input
  if 0xD800 ≤ unit && unit < 0xDC00 then
    match rest with
    | '\\' :: 'u' :: more =>
      let (low, after) ← hex4 more
      if 0xDC00 ≤ low && low < 0xE000 then
        return (some (Char.ofNat (0x10000 + (unit - 0xD800) * 1024 + (low - 0xDC00))), after)
      else return (none, rest)
    | _ => return (none, rest)
  else if 0xDC00 ≤ unit && unit < 0xE000 then return (none, rest)
  else return (some (Char.ofNat unit), rest)

/-- The rest of a string behind its opening quote; `sofar` holds the characters read, last first,
or nothing once an escape had no character. -/
def stringTail : Nat → Option (List Char) → List Char → Option (Option String × List Char)
  | 0, _, _ => none
  | fuel + 1, sofar, input =>
    match input with
    | [] => none
    | '"' :: rest => some (sofar.map fun cs => String.ofList cs.reverse, rest)
    | '\\' :: 'u' :: rest => do
      let (c, rest) ← unicodeEscape rest
      stringTail fuel (do return (← c) :: (← sofar)) rest
    | '\\' :: c :: rest => do
      let c ← shortEscape c
      stringTail fuel (sofar.map (c :: ·)) rest
    | c :: rest => if c.toNat < 32 || c = '\\' then none else stringTail fuel (sofar.map (c :: ·)) rest

/-! ### Values -/

/-- The input behind a fixed word. -/
def keyword (word : String) (input : List Char) : Option (List Char) :=
  let letters := word.toList
  if letters.isPrefixOf input then some (input.drop letters.length) else none

mutual

/-- The value in front of the input. -/
def value : Nat → List Char → Option (Value × List Char)
  | 0, _ => none
  | fuel + 1, input =>
    match skipBlanks input with
    | [] => none
    | '{' :: rest =>
      match skipBlanks rest with
      | '}' :: rest => some (.object [], rest)
      | rest => do
        let (items, rest) ← members fuel rest
        return (.object items, rest)
    | '[' :: rest =>
      match skipBlanks rest with
      | ']' :: rest => some (.array [], rest)
      | rest => do
        let (items, rest) ← elements fuel rest
        return (.array items, rest)
    | '"' :: rest => do
      let (text, rest) ← stringTail (rest.length + 1) (some []) rest
      return (.string text, rest)
    | '-' :: rest => numeral true rest
    | 't' :: rest => (keyword "rue" rest).map fun rest => (.bool true, rest)
    | 'f' :: rest => (keyword "alse" rest).map fun rest => (.bool false, rest)
    | 'n' :: rest => (keyword "ull" rest).map fun rest => (.null, rest)
    | rest => numeral false rest

/-- The values of an array up to its closing bracket. -/
def elements : Nat → List Char → Option (List Value × List Char)
  | 0, _ => none
  | fuel + 1, input => do
    let (first, rest) ← value fuel input
    match skipBlanks rest with
    | ',' :: rest =>
      let (others, rest) ← elements fuel rest
      return (first :: others, rest)
    | ']' :: rest => return ([first], rest)
    | _ => none

/-- The members of an object up to its closing brace. -/
def members : Nat → List Char → Option (List (Option String × Value) × List Char)
  | 0, _ => none
  | fuel + 1, input => do
    match skipBlanks input with
    | '"' :: rest =>
      let (name, rest) ← stringTail (rest.length + 1) (some []) rest
      match skipBlanks rest with
      | ':' :: rest =>
        let (first, rest) ← value fuel rest
        match skipBlanks rest with
        | ',' :: rest =>
          let (others, rest) ← members fuel rest
          return ((name, first) :: others, rest)
        | '}' :: rest => return ([(name, first)], rest)
        | _ => none
      | _ => none
    | _ => none

end

/-- The value of a whole document. -/
def parse (document : String) : Option Value := do
  let input := document.toList
  let (result, rest) ← value (2 * input.length + 2) input
  if (skipBlanks rest).isEmpty then return result else none

end AttestedLedger.Json
