/-
Streams whose bytes arrive in pieces.

A connection hands over what has arrived, which need not be what was sent in one go: a frame
may come in several pieces, and one piece may hold several frames.  A reader that needs so
many bytes goes on from piece to piece until it has them; what it does not need of the last
one is the first thing the next reader gets.
-/
import AttestedLedger.Message

namespace AttestedLedger

/-- The pieces of a stream in the order in which they arrive, up to its end. -/
abbrev Arrivals := List Bytes

namespace Arrivals

/-- Exactly `count` bytes, and the pieces that are left, or nothing when the stream ends
before. -/
def readExact : Nat → Arrivals → Option (Bytes × Arrivals)
  | count, [] => if count = 0 then some ([], []) else none
  | count, piece :: later =>
    if count ≤ piece.length then some (piece.take count, piece.drop count :: later)
    else
      match readExact (count - piece.length) later with
      | none => none
      | some (others, left) => some (piece ++ others, left)

/-- The first message of a stream. -/
def receive (arrivals : Arrivals) : Message.Received Arrivals :=
  Message.receiveBy readExact arrivals

/-- What `count` calls in a row receive, if each of them gets a message, and the pieces that
are left then. -/
def receiveMany : Nat → Arrivals → Option (List Message × Arrivals)
  | 0, arrivals => some ([], arrivals)
  | count + 1, arrivals =>
    match receive arrivals with
    | .message message rest =>
      match receiveMany count rest with
      | none => none
      | some (messages, left) => some (message :: messages, left)
    | _ => none

end Arrivals

end AttestedLedger
