/-
Decoders: what reads a value off the front of a byte string.

A decoder takes the remaining input and either names what is wrong with it or returns
a value and the input that follows.  Errors are causes: the input ended early, a length
prefix is above what the format allows, bytes are left over, or a field holds something
that has no meaning.  `complete` turns a decoder into a reader of whole strings, for
which left-over bytes are an error.
-/
import AttestedLedger.Bytes
import AttestedLedger.Text.Utf8

namespace AttestedLedger

/-- What makes a field meaningless. -/
inductive FieldFault where
  /-- A command is not UTF-8. -/
  | commandNotText (fault : Utf8.Fault)
  /-- A command is text but names no kind of message. -/
  | unknownCommand (name : String)
  /-- A frame is shorter than its header. -/
  | shortFrame
  /-- A frame's payload has another length than its header says. -/
  | payloadLength (actual announced : Nat)
  deriving DecidableEq, Repr

/-- Why bytes do not decode. -/
inductive CodecError where
  | truncated
  | lengthOverflow (length : Nat)
  | trailingBytes (count : Nat)
  | invalidField (fault : FieldFault)
  deriving DecidableEq, Repr

/-- The text shown for a meaningless field. -/
def FieldFault.message : FieldFault → String
  | .commandNotText fault => s!"message type: {fault.message}"
  | .unknownCommand name => s!"unknown message type: {name}"
  | .shortFrame => "message too short"
  | .payloadLength actual announced => s!"payload length {actual} does not match header {announced}"

/-- The text shown for a decoding error. -/
def CodecError.message : CodecError → String
  | .truncated => "unexpected end of input: failed to fill whole buffer"
  | .lengthOverflow length => s!"length prefix {length} exceeds remaining input"
  | .trailingBytes count => s!"{count} trailing bytes after value"
  | .invalidField fault => s!"invalid field: {fault.message}"

/-- A reader of the front of a byte string. -/
abbrev Decoder (α : Type) := StateT Bytes (Except CodecError) α

namespace Decoder

/-- Exactly `count` bytes. -/
def exactly (count : Nat) : Decoder Bytes := fun input =>
  match Bytes.splitExact count input with
  | some split => .ok split
  | none => .error .truncated

/-- A word of `width` bytes, least significant first. -/
def word (width : Nat) : Decoder Nat := fun input =>
  match Bytes.splitExact width input with
  | some (front, rest) => .ok (Bytes.littleEndianValue front, rest)
  | none => .error .truncated

/-- A word of eight bytes. -/
def word64 : Decoder UInt64 := do return UInt64.ofNat (← word 8)

/-- `count` values in a row. -/
def times (item : Decoder α) : Nat → Decoder (List α)
  | 0 => pure []
  | count + 1 => do
    let first ← item
    let others ← times item count
    return first :: others

/-- Read a whole string: bytes after the value are an error. -/
def complete (decoder : Decoder α) (input : Bytes) : Except CodecError α :=
  match decoder input with
  | .error e => .error e
  | .ok (value, []) => .ok value
  | .ok (_, rest) => .error (.trailingBytes rest.length)

end Decoder

end AttestedLedger
