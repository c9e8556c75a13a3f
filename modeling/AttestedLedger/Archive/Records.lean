/-
Records: the contents of one key-value database.

Keys and values are byte strings, and records are always listed in the order of their
keys.
-/
import AttestedLedger.Bytes
import Std.Data.TreeMap

namespace AttestedLedger

/-- Records in the order of their keys. -/
abbrev Records := Std.TreeMap Bytes Bytes

/-- The records with one more, replaced or removed. -/
def Records.update (records : Records) (key : Bytes) : Option Bytes → Records
  | some value => records.insert key value
  | none => records.erase key

end AttestedLedger
