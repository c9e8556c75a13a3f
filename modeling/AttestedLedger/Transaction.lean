/-
Transactions and their bytes.

A transaction moves an amount from one key to another; its timestamp keeps two equal
transfers apart.  It is known everywhere by the digest of its bytes.
-/
import AttestedLedger.Codec.Prefixed
import AttestedLedger.Digest.Sha256
import AttestedLedger.Key.Basic

namespace AttestedLedger

/-- A transfer between two keys. -/
structure Transaction where
  sender : MinerKey
  recipient : MinerKey
  amount : UInt64
  timestamp : UInt64
  deriving DecidableEq

/-- The longest key or signature a block or transaction may carry on the wire. -/
def maxKeyBytes : Nat := 256

namespace Transaction

/-- Both keys behind their lengths, then two words. -/
def encode (tx : Transaction) : Bytes :=
  Prefixed.encode tx.sender.bytes ++ Prefixed.encode tx.recipient.bytes ++
    Bytes.littleEndian 8 tx.amount.toNat ++ Bytes.littleEndian 8 tx.timestamp.toNat

/-- The transaction in front of the input. -/
def decoder : Decoder Transaction := do
  let sender ← Prefixed.decode maxKeyBytes
  let recipient ← Prefixed.decode maxKeyBytes
  let amount ← Decoder.word64
  let timestamp ← Decoder.word64
  return ⟨⟨sender⟩, ⟨recipient⟩, amount, timestamp⟩

/-- The transaction that is the whole input. -/
def decode (input : Bytes) : Except CodecError Transaction := decoder.complete input

/-- The name of a transaction: the digest of its bytes. -/
def digest (tx : Transaction) : Digest := Sha256.digest tx.encode

end Transaction

end AttestedLedger
