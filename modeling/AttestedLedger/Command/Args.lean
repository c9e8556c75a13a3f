/-
The command line.

Two options stand before or behind the name of the command; behind it, the command's own
options and operands are mixed freely.  An option's value follows it, joined by an equals
sign or as the next argument, which must then not look like an option; the short option
also takes its value without a joint.  Behind two dashes everything is an operand.  An
option given twice in one place is refused unless it may be repeated, and of an option
given in both places the later one holds.
-/
import AttestedLedger.Peer.Address

namespace AttestedLedger

/-- What a user asks of the program. -/
inductive Command where
  /-- Run a node, mining if asked, on a port and with some peers. -/
  | node (mine : Bool) (port : UInt16) (peers : List Address)
  /-- Show the stored chain. -/
  | info
  /-- Show this node's key. -/
  | identity
  /-- Submit a transaction to a running node. -/
  | send (peer : Address) (recipient : String) (amount : UInt64)
  deriving DecidableEq

/-- A command and where its files are. -/
structure Invocation where
  dataDir : String
  config : Option String
  command : Command

namespace Invocation

/-! ### Values -/

/-- A decimal number with an optional plus sign, of at most `limit`. -/
def unsigned (limit : Nat) (text : String) : Option Nat :=
  let digits := match text.toList with
    | '+' :: rest => rest
    | other => other
  if digits.isEmpty || !digits.all Char.isDigit then none
  else
    let value := digits.foldl (fun n c => 10 * n + (c.toNat - 48)) 0
    if value ≤ limit then some value else none

/-- A port.  Zero may also be written with a minus sign. -/
def portOf (text : String) : Option UInt16 :=
  match text.toList with
  | '-' :: rest =>
    if rest.isEmpty || !rest.all (· == '0') then none else some 0
  | _ => (unsigned 0xffff text).map UInt16.ofNat

/-! ### Options -/

/-- The options that any command knows. -/
inductive OptionName where
  | dataDir
  | config
  | mine
  | port
  | peer
  deriving DecidableEq

/-- The long name of an option. -/
def OptionName.long : OptionName → String
  | dataDir => "data-dir"
  | config => "config"
  | mine => "mine"
  | port => "port"
  | peer => "peer"

/-- Whether an option takes a value. -/
def OptionName.takesValue (name : OptionName) : Bool := name != .mine

/-- The options known before and behind the name of every command. -/
def everywhere : List OptionName := [.dataDir, .config]

/-- The options known behind the name of a command. -/
def optionsOf (command : String) : List OptionName :=
  if command = "node" then everywhere ++ [.mine, .port, .peer] else everywhere

/-- An option with the value joined to it, as one argument gives them; `none` for an operand and
`some none` for an option that is not known. -/
def optionIn (known : List OptionName) (argument : String) :
    Option (Option (OptionName × Option String)) :=
  match argument.toList with
  | '-' :: '-' :: name =>
    let key := String.ofList (name.takeWhile (· != '='))
    let joined := match name.dropWhile (· != '=') with
      | _ :: value => some (String.ofList value)
      | [] => none
    some ((known.find? fun o => o.long == key).map (·, joined))
  | '-' :: c :: rest =>
    if c = 'p' && known.contains .port then
      let joined := match rest with
        | [] => none
        | '=' :: value | value => some (String.ofList value)
      some (some (.port, joined))
    else some none
  | _ => none

/-- Whether an argument can be the value of the option before it. -/
def isValue (argument : String) : Bool :=
  match argument.toList with
  | '-' :: _ :: _ => false
  | _ => true

/-- Options with their values, and operands, in the order given. -/
structure Parsed where
  options : List (OptionName × String)
  operands : List String

/-- The values given to an option. -/
def Parsed.values (p : Parsed) (name : OptionName) : List String :=
  p.options.filterMap fun (o, value) => if o = name then some value else none

/-- At most one value of an option. -/
def Parsed.single? (p : Parsed) (name : OptionName) : Option (Option String) :=
  match p.values name with
  | [] => some none
  | [value] => some (some value)
  | _ => none

/-- Sort the arguments behind the name of a command. -/
def sort (known : List OptionName) : List String → Option Parsed
  | [] => some ⟨[], []⟩
  | "--" :: rest => some ⟨[], rest⟩
  | argument :: rest =>
    match optionIn known argument with
    | none => do
      let p ← sort known rest
      return { p with operands := argument :: p.operands }
    | some none => none
    | some (some (name, joined)) =>
      if name.takesValue then
        match joined, rest with
        | some value, rest => do
          let p ← sort known rest
          return { p with options := (name, value) :: p.options }
        | none, value :: rest =>
          if isValue value then do
            let p ← sort known rest
            return { p with options := (name, value) :: p.options }
          else none
        | none, [] => none
      else if joined.isSome then none
      else do
        let p ← sort known rest
        return { p with options := (name, "") :: p.options }

/-- Split the arguments at the name of the command: the options before it, the name, and what is
behind it. -/
def splitAtName : List String → Option (List (OptionName × String) × String × List String)
  | [] => none
  | argument :: rest =>
    match optionIn everywhere argument with
    | none => some ([], argument, rest)
    | some none => none
    | some (some (name, some value)) => do
      let (options, command, behind) ← splitAtName rest
      return ((name, value) :: options, command, behind)
    | some (some (name, none)) =>
      match rest with
      | value :: rest =>
        if isValue value then do
          let (options, command, behind) ← splitAtName rest
          return ((name, value) :: options, command, behind)
        else none
      | [] => none

/-! ### Whole command lines -/

/-- The command with a name, its options and its operands. -/
def commandOf (name : String) (p : Parsed) : Option Command :=
  match name, p.operands with
  | "node", [] => do
    let mine ← p.single? .mine
    let port ← portOf ((← p.single? .port).getD "8333")
    let peers ← (p.values .peer).mapM Address.parse
    return .node mine.isSome port peers
  | "info", [] => some .info
  | "identity", [] => some .identity
  | "send", [peer, recipient, amount] => do
    return .send (← Address.parse peer) recipient (UInt64.ofNat (← unsigned (UInt64.size - 1) amount))
  | _, _ => none

/-- A path, which must not be empty. -/
def pathOf (before behind : Parsed) (name : OptionName) : Option (Option String) := do
  let outer ← before.single? name
  let inner ← behind.single? name
  if outer = some "" ∨ inner = some "" then none else return (inner <|> outer)

/-- What the arguments ask for, or nothing if they are not understood. -/
def parse (arguments : List String) : Option Invocation := do
  let (options, name, rest) ← splitAtName arguments
  let before : Parsed := ⟨options, []⟩
  let behind ← sort (optionsOf name) rest
  let command ← commandOf name behind
  let dataDir ← pathOf before behind .dataDir
  let config ← pathOf before behind .config
  return ⟨dataDir.getD "./data", config, command⟩

end Invocation

end AttestedLedger
