/-
Byte strings and lists of byte strings behind a length.

A reader is given the longest length it may meet, and refuses a longer one as soon as
it has read the prefix, before it looks at the bytes that follow.
-/
import AttestedLedger.Codec.Varint

namespace AttestedLedger.Prefixed

/-- A byte string behind its length. -/
def encode (bytes : Bytes) : Bytes := Varint.encode bytes.length ++ bytes

/-- A number that must not exceed `limit`. -/
def length (limit : Nat) : Decoder Nat := do
  let n ← Varint.decode
  if limit < n then throw (.lengthOverflow n) else return n

/-- A byte string of at most `limit` bytes behind its length. -/
def decode (limit : Nat) : Decoder Bytes := do Decoder.exactly (← length limit)

/-- A list of items behind its length. -/
def encodeMany (item : α → Bytes) (items : List α) : Bytes :=
  Varint.encode items.length ++ items.flatMap item

/-- A list of at most `limit` items behind its length. -/
def decodeMany (limit : Nat) (item : Decoder α) : Decoder (List α) := do
  Decoder.times item (← length limit)

/-- A list of byte strings. -/
def encodeList (items : List Bytes) : Bytes := encodeMany encode items

/-- A list of at most `maxItems` byte strings of at most `maxLength` bytes each. -/
def decodeList (maxItems maxLength : Nat) : Decoder (List Bytes) :=
  decodeMany maxItems (decode maxLength)

end AttestedLedger.Prefixed
