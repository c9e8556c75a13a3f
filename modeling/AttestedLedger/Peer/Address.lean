/-
Addresses of nodes: a host and a port.

Both kinds of host are read and shown in their usual forms.  A host of the long kind
stands in square brackets, may leave out one run of zero groups, may end in a host of the
short kind, and may name a scope.  It is shown with its longest run of at least two zero
groups left out.
-/
import AttestedLedger.Bytes.Hex

namespace AttestedLedger

/-- Where a host is found. -/
inductive Host where
  /-- Four bytes. -/
  | short (a b c d : UInt8)
  /-- Eight groups of sixteen bits, and a scope. -/
  | long (groups : List Nat) (scope : Nat)
  deriving DecidableEq, Repr

/-- A host and a port. -/
structure Address where
  host : Host
  port : UInt16
  deriving DecidableEq, Repr

namespace Address

/-! ### Reading -/

/-- The value of a digit in a base of at most sixteen. -/
def digit? (base : Nat) (c : Char) : Option Nat :=
  let value :=
    if '0' ≤ c && c ≤ '9' then c.toNat - 48
    else if 'a' ≤ c && c ≤ 'f' then c.toNat - 87
    else if 'A' ≤ c && c ≤ 'F' then c.toNat - 55
    else 16
  if value < base then some value else none

/-- A number with at least one digit and a value of at most `limit`, in front of the input. -/
def number (base limit : Nat) (maxDigits : Option Nat) (leadingZero : Bool) (input : List Char) :
    Option (Nat × List Char) :=
  let digits := (input.takeWhile fun c => (digit? base c).isSome).filterMap (digit? base)
  let value := digits.foldl (fun n d => base * n + d) 0
  let tooLong := match maxDigits with
    | some n => n < digits.length
    | none => false
  if digits.isEmpty || tooLong || (!leadingZero && digits.head? == some 0 && 1 < digits.length) ||
      limit < value then none
  else some (value, input.drop digits.length)

/-- The input behind a fixed character. -/
def behind (c : Char) : List Char → Option (List Char)
  | x :: rest => if x = c then some rest else none
  | [] => none

/-- A byte in decimal, without leading zeros. -/
def octet (input : List Char) : Option (UInt8 × List Char) :=
  (number 10 255 (some 3) false input).map fun (n, rest) => (UInt8.ofNat n, rest)

/-- Four bytes with points between them. -/
def shortHost (input : List Char) : Option ((UInt8 × UInt8 × UInt8 × UInt8) × List Char) := do
  let (a, rest) ← octet input
  let (b, rest) ← octet (← behind '.' rest)
  let (c, rest) ← octet (← behind '.' rest)
  let (d, rest) ← octet (← behind '.' rest)
  return ((a, b, c, d), rest)

/-- Two groups made of four bytes. -/
def pairOfShort : UInt8 × UInt8 × UInt8 × UInt8 → List Nat
  | (a, b, c, d) => [a.toNat * 256 + b.toNat, c.toNat * 256 + d.toNat]

/-- Up to `room` groups; the flag says that they end in four bytes in decimal. -/
def groups (first : Bool) : Nat → List Char → List Nat × Bool × List Char
  | 0, input => ([], false, input)
  | room + 1, input =>
    match if first then some input else behind ':' input with
    | none => ([], false, input)
    | some start =>
      match (if 1 ≤ room then shortHost start else none) with
      | some (bytes, rest) => (pairOfShort bytes, true, rest)
      | none =>
        match number 16 0xffff (some 4) true start with
        | none => ([], false, input)
        | some (group, rest) =>
          let (more, short, rest) := groups false room rest
          (group :: more, short, rest)

/-- Eight groups, one run of zeros possibly left out. -/
def longHost (input : List Char) : Option (List Nat × List Char) := do
  let (front, short, rest) := groups true 8 input
  if front.length = 8 then return (front, rest)
  else if short then none
  else
    let rest ← behind ':' (← behind ':' rest)
    let (back, _, rest) := groups true (7 - front.length) rest
    return (front ++ List.replicate (8 - front.length - back.length) 0 ++ back, rest)

/-- The port behind a colon, at the end of the input. -/
def portAtEnd (input : List Char) : Option UInt16 := do
  let (port, rest) ← number 10 0xffff none true (← behind ':' input)
  if rest.isEmpty then return UInt16.ofNat port else none

/-- The address that a text denotes. -/
def parse (text : String) : Option Address :=
  let input := text.toList
  match shortHost input with
  | some ((a, b, c, d), rest) => do return ⟨.short a b c d, ← portAtEnd rest⟩
  | none => do
    let (host, rest) ← longHost (← behind '[' input)
    let (scope, rest) := match (behind '%' rest).bind (number 10 0xffffffff none true) with
      | some found => found
      | none => (0, rest)
    return ⟨.long host scope, ← portAtEnd (← behind ']' rest)⟩

/-! ### Showing -/

/-- Groups in hexadecimal, with colons between them. -/
def showGroups (groups : List Nat) : String :=
  ":".intercalate (groups.map fun g => String.ofList (Nat.toDigits 16 g))

/-- The start and the length of the first longest run of zeros. -/
def longestRun (groups : List Nat) : Nat × Nat :=
  (List.range groups.length).foldl (fun (best : Nat × Nat) start =>
    let length := ((groups.drop start).takeWhile (· == 0)).length
    if best.2 < length then (start, length) else best) (0, 0)

/-- Four bytes with points between them. -/
def showShort (a b c d : UInt8) : String := s!"{a}.{b}.{c}.{d}"

/-- A host of the long kind without its brackets. -/
def showLong (groups : List Nat) : String :=
  if groups.take 6 = [0, 0, 0, 0, 0, 0xffff] then
    let byte (i shift : Nat) : UInt8 := UInt8.ofNat (groups.getD i 0 / shift)
    "::ffff:" ++ showShort (byte 6 256) (byte 6 1) (byte 7 256) (byte 7 1)
  else
    let (start, length) := longestRun groups
    if 1 < length then
      showGroups (groups.take start) ++ "::" ++ showGroups (groups.drop (start + length))
    else showGroups groups

/-- The text of an address. -/
def render (address : Address) : String :=
  match address.host with
  | .short a b c d => s!"{showShort a b c d}:{address.port}"
  | .long groups scope =>
    let zone := if scope = 0 then "" else "%" ++ toString scope
    s!"[{showLong groups}{zone}]:{address.port}"

instance : ToString Address := ⟨render⟩

/-- A port on this host. -/
def loopback (port : UInt16) : Address := ⟨.short 127 0 0 1, port⟩

/-- A port on every interface of this host. -/
def anyInterface (port : UInt16) : Address := ⟨.short 0 0 0 0, port⟩

end Address

end AttestedLedger
