/-
An archive as the content of one file.

The records of the two databases stand one after the other, the blocks' first.  Each
database is a list of records behind its length, and a record is its key and its value,
each behind its own length.
-/
import AttestedLedger.Archive.Store
import AttestedLedger.Codec.Prefixed

namespace AttestedLedger

namespace Records

/-- The most bytes or records that a length is taken for. -/
def limit : Nat := UInt64.size - 1

/-- A record: its key, then its value. -/
def encodeEntry (entry : Bytes × Bytes) : Bytes :=
  Prefixed.encode entry.1 ++ Prefixed.encode entry.2

/-- Read a record. -/
def decodeEntry : Decoder (Bytes × Bytes) := do
  let key ← Prefixed.decode limit
  let value ← Prefixed.decode limit
  return (key, value)

/-- All records in the order of their keys. -/
def encode (records : Records) : Bytes := Prefixed.encodeMany encodeEntry records.toList

/-- Read records; of two with one key the later one counts. -/
def decode : Decoder Records := do
  let entries ← Prefixed.decodeMany limit decodeEntry
  return entries.foldl (fun records (key, value) => records.insert key value) ∅

end Records

namespace Archive

/-- The content of the file that keeps an archive. -/
def toFile (archive : Archive) : Bytes := archive.chain.encode ++ archive.pool.encode

/-- The archive kept in a file, if the content is one. -/
def ofFile? (content : Bytes) : Option Archive :=
  let both : Decoder Archive := do return ⟨← Records.decode, ← Records.decode⟩
  match both content with
  | .ok (archive, []) => some archive
  | _ => none

end Archive

end AttestedLedger
