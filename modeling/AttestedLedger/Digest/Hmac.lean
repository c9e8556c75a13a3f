/-
Keyed digests: HMAC with SHA-256.

The key is brought to the length of a block, mixed with two fixed pads, and the message
is digested twice, the inner digest becoming the outer message.
-/
import AttestedLedger.Digest.Sha256

namespace AttestedLedger.Hmac

/-- The key at the length of one block: digested if longer, then filled with zeros. -/
def blockKey (key : Bytes) : Bytes :=
  let short := if 64 < key.length then (Sha256.digest key).bytes else key
  short ++ List.replicate (64 - short.length) 0

/-- The digest of a message under a key. -/
def digest (key message : Bytes) : Digest :=
  let k := blockKey key
  let inner := Sha256.digest (k.map (· ^^^ 0x36) ++ message)
  Sha256.digest (k.map (· ^^^ 0x5c) ++ inner.bytes)

end AttestedLedger.Hmac
