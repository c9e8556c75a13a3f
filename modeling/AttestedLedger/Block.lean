/-
Blocks and their bytes.

A block is encoded in three scopes.  The full encoding holds every field and names the
block.  The attested encoding leaves the verifiers of the finished block empty: it is what
verifiers sign, before and after the search.  The sealed encoding also leaves out the time
the search took: it is what proof of work digests, so that finishing a block never undoes
its work.
-/
import AttestedLedger.Duration
import AttestedLedger.Transaction

namespace AttestedLedger

/-- A block of the chain, or a candidate for one. -/
structure Block where
  miner : MinerKey
  transactions : List Transaction
  nonce : UInt64
  difficulty : UInt64
  timestamp : UInt64
  previous : Digest
  /-- How long the search for this block took. -/
  miningTime : Duration
  /-- Who attested the timestamp before the nonce was found. -/
  preVerifiers : List MinerKey
  preSignatures : List Signature
  /-- Who attested the finished block. -/
  verifiers : List MinerKey
  signatures : List Signature
  deriving DecidableEq

/-- The longest list a block may carry on the wire. -/
def maxListLength : Nat := 100000

namespace Block

/-- A block not yet searched for: nonce zero, no time spent, no attestations. -/
def candidate (miner : MinerKey) (transactions : List Transaction) (difficulty timestamp : UInt64)
    (previous : Digest) : Block where
  miner := miner
  transactions := transactions
  nonce := 0
  difficulty := difficulty
  timestamp := timestamp
  previous := previous
  miningTime := .zero
  preVerifiers := []
  preSignatures := []
  verifiers := []
  signatures := []

/-- The block every chain starts with. -/
def genesis : Block := candidate .zero [] 0 0 .zero

instance : Inhabited Block := ⟨genesis⟩

/-- Whether a block claims to start a chain. -/
def isGenesis (block : Block) : Bool :=
  block.previous.isZero && block.miner.isZero && block.difficulty == 0

/-! ### Encoding -/

/-- How much of a block an encoding covers. -/
inductive Scope where
  | full
  | attested
  | sealed
  deriving DecidableEq, Repr

/-- A list of keys. -/
def encodeKeys (keys : List MinerKey) : Bytes := Prefixed.encodeMany (fun k => Prefixed.encode k.bytes) keys

/-- A list of signatures. -/
def encodeSignatures (signatures : List Signature) : Bytes :=
  Prefixed.encodeMany (fun s => Prefixed.encode s.bytes) signatures

/-- The time the search took, as a scope shows it. -/
def scopedTime (scope : Scope) (time : Duration) : UInt64 :=
  match scope with
  | .sealed => 0
  | _ => time.toNanos64

/-- The verifiers of the finished block, as a scope shows them. -/
def encodeFinalSets (scope : Scope) (block : Block) : Bytes :=
  match scope with
  | .full => encodeKeys block.verifiers ++ encodeSignatures block.signatures
  | _ => encodeKeys [] ++ encodeSignatures []

/-- The bytes of a block in a scope. -/
def encodeIn (scope : Scope) (block : Block) : Bytes :=
  Prefixed.encode block.miner.bytes ++
    (Prefixed.encodeMany Transaction.encode block.transactions ++
    (Bytes.littleEndian 8 block.nonce.toNat ++
    (Bytes.littleEndian 8 block.difficulty.toNat ++
    (Bytes.littleEndian 8 block.timestamp.toNat ++
    (block.previous.bytes ++
    (Bytes.littleEndian 8 (scopedTime scope block.miningTime).toNat ++
    (encodeKeys block.preVerifiers ++
    (encodeSignatures block.preSignatures ++
    encodeFinalSets scope block))))))))

/-- All of a block. -/
def encode (block : Block) : Bytes := encodeIn .full block

/-- What verifiers sign. -/
def payload (block : Block) : Bytes := encodeIn .attested block

/-- What proof of work digests. -/
def sealedBytes (block : Block) : Bytes := encodeIn .sealed block

/-- The name of a block. -/
def digest (block : Block) : Digest := Sha256.digest block.encode

/-- The digest that proof of work compares with the target. -/
def workDigest (block : Block) : Digest := Sha256.digest block.sealedBytes

/-! ### Decoding -/

/-- The 32 bytes of a digest. -/
def digestDecoder : Decoder Digest := fun input =>
  match Bytes.splitExact 32 input with
  | some (front, rest) =>
    if h : front.length = 32 then .ok (⟨front, h⟩, rest) else .error .truncated
  | none => .error .truncated

/-- A list of keys or signatures. -/
def listDecoder (make : Bytes → α) : Decoder (List α) := do
  return (← Prefixed.decodeList maxListLength maxKeyBytes).map make

/-- The block in front of the input. -/
def decoder : Decoder Block := do
  let miner ← Prefixed.decode maxKeyBytes
  let transactions ← Prefixed.decodeMany maxListLength Transaction.decoder
  let nonce ← Decoder.word64
  let difficulty ← Decoder.word64
  let timestamp ← Decoder.word64
  let previous ← digestDecoder
  let miningTime ← Decoder.word64
  let preVerifiers ← listDecoder MinerKey.mk
  let preSignatures ← listDecoder Signature.mk
  let verifiers ← listDecoder MinerKey.mk
  let signatures ← listDecoder Signature.mk
  return { miner := ⟨miner⟩, transactions, nonce, difficulty, timestamp, previous,
           miningTime := .ofNanos64 miningTime, preVerifiers, preSignatures, verifiers, signatures }

/-- The block that is the whole input. -/
def decode (input : Bytes) : Except CodecError Block := decoder.complete input

end Block

end AttestedLedger
