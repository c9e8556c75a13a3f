/-
The file that keeps an identity between runs.

The file is a JSON object with the secret and the public key in hexadecimal.  Loading
checks that the two belong together, and compares the public key as text, so that only
its lower-case form is taken.
-/
import AttestedLedger.Json.Reader
import AttestedLedger.Key.Identity

namespace AttestedLedger.Identity

/-- Why a file holds no identity. -/
inductive LoadError where
  /-- The file is missing or is not text. -/
  | unreadable
  /-- The text is not an object with the two fields. -/
  | unparsable
  | badEncoding (fault : Hex.Error)
  /-- The secret is not a scalar of the right range. -/
  | badSecret
  /-- The public key is not the secret's. -/
  | mismatch
  deriving DecidableEq, Repr

/-- The text shown for a secret that is not one. -/
def badSecretMessage : String := "Invalid secret key: malformed or out-of-range secret key"

/-- The text shown for the faults that lie in the file's content. -/
def LoadError.message? : LoadError → Option String
  | .unreadable | .unparsable => none
  | .badEncoding fault => some s!"Invalid secret key encoding: {fault.message}"
  | .badSecret => some badSecretMessage
  | .mismatch => some "Identity file public key does not match its secret key"

/-- The names of the file's fields. -/
def fieldNames : List String := ["secret_key_hex", "public_key_hex"]

/-- One line of the file. -/
def fieldLine (name value : String) : String := s!"  \"{name}\": \"{value}\""

/-- The text of the file that keeps an identity. -/
def toFile (identity : Identity) : String :=
  let lines := fieldNames.zipWith fieldLine [Hex.encode identity.secretBytes, identity.minerKey.toHex]
  "\x7b\n" ++ ",\n".intercalate lines ++ "\n\x7d"

/-- The secret and the public key that a document gives. -/
def fieldsOf? (document : Json.Value) : Option (String × String) := do
  match ← document.fields? fieldNames with
  | [some secret, some key] => return (← secret.text?, ← key.text?)
  | _ => none

/-- The identity kept in a file; nothing stands for a missing file. -/
def load (file : Option Bytes) : Except LoadError Identity :=
  match file.bind Utf8.decode? with
  | none => .error .unreadable
  | some text =>
    match (Json.parse text).bind fieldsOf? with
    | none => .error .unparsable
    | some (secret, key) =>
      match Hex.decode secret with
      | .error fault => .error (.badEncoding fault)
      | .ok bytes =>
        match ofSecret? bytes with
        | none => .error .badSecret
        | some identity => if identity.minerKey.toHex = key then .ok identity else .error .mismatch

/-- The identity kept in a file, or a fresh one when there is no file.  A fresh identity comes
with the file to be written. -/
def loadOrCreate (file : Option Bytes) (fresh : Identity) :
    Except LoadError (Identity × Option Bytes) :=
  match file with
  | none => .ok (fresh, some (Utf8.encode fresh.toFile))
  | some content => (load (some content)).map fun identity => (identity, none)

end AttestedLedger.Identity
