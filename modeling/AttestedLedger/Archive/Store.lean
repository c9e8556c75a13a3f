/-
The archive: what a node keeps between runs.

One database holds the blocks by digest, an index from heights to digests, the number of
blocks and the digest of the tip; another holds the waiting transactions by digest.
Reading decodes records and never trusts them: a record that does not decode, has a wrong
length or is missing is an error that says so.
-/
import AttestedLedger.Archive.Records
import AttestedLedger.Ledger.State

namespace AttestedLedger

/-- Damage to the archive other than a broken chain. -/
inductive Corruption where
  | badDigest (error : Digest.Error)
  | badHeight (length : Nat)
  | missingBlock (height : Nat)
  | misfiledTransaction
  deriving DecidableEq, Repr

/-- The text shown for damage. -/
def Corruption.message : Corruption → String
  | .badDigest error => error.message
  | .badHeight length => s!"invalid height data length: {length}"
  | .missingBlock height => s!"missing block at height {height}"
  | .misfiledTransaction => "pool entry does not match its key"

/-- Why the archive cannot be read. -/
inductive ArchiveError where
  | codec (error : CodecError)
  | integrity (error : IntegrityError)
  | corrupt (damage : Corruption)
  deriving DecidableEq, Repr

/-- The text shown for an archive error. -/
def ArchiveError.message : ArchiveError → String
  | .codec error => s!"stored record is malformed: {error.message}"
  | .integrity error => s!"stored chain is corrupt: {error.message}"
  | .corrupt damage => s!"storage is corrupt: {damage.message}"

/-- Whether the chain is damaged, so that it must not be mined on. -/
def ArchiveError.isFatal : ArchiveError → Bool
  | .codec _ => false
  | .integrity _ | .corrupt _ => true

/-- The two databases of a node. -/
structure Archive where
  chain : Records
  pool : Records

namespace Archive

/-- Nothing stored. -/
def empty : Archive := ⟨∅, ∅⟩

instance : Inhabited Archive := ⟨empty⟩

/-! ### Keys -/

/-- The key of a block. -/
def blockKey (digest : Digest) : Bytes := 0x62 :: digest.bytes

/-- The key of a place in the height index.  Heights sort as numbers. -/
def heightKey (height : Nat) : Bytes := 0x68 :: Bytes.bigEndian 8 height

/-- The key of the tip's digest. -/
def tipKey : Bytes := Utf8.encode "tip"

/-- The key of the number of blocks. -/
def countKey : Bytes := Utf8.encode "height"

/-! ### Writing -/

/-- One change to the archive. -/
inductive Write where
  | clearChain
  | putChain (key value : Bytes)
  | replacePool (transactions : List Transaction)

/-- The records of waiting transactions. -/
def poolRecords (transactions : List Transaction) : Records :=
  transactions.foldl (fun records tx => records.insert tx.digest.bytes tx.encode) ∅

/-- The archive after a change. -/
def apply (archive : Archive) : Write → Archive
  | .clearChain => { archive with chain := ∅ }
  | .putChain key value => { archive with chain := archive.chain.insert key value }
  | .replacePool transactions => { archive with pool := poolRecords transactions }

/-- The archive after several changes. -/
def applyAll (archive : Archive) (writes : List Write) : Archive := writes.foldl apply archive

/-- A block by its digest, and its place in the height index. -/
def blockWrites (height : Nat) (block : Block) : List Write :=
  [.putChain (blockKey block.digest) block.encode, .putChain (heightKey height) block.digest.bytes]

/-- The digest of the tip. -/
def tipWrite (digest : Digest) : Write := .putChain tipKey digest.bytes

/-- The number of blocks. -/
def countWrite (count : Nat) : Write := .putChain countKey (Bytes.littleEndian 8 count)

/-! ### Reading -/

/-- A record that holds a digest. -/
def readDigest (value : Bytes) : Except ArchiveError Digest :=
  match Digest.ofBytes value with
  | .ok digest => .ok digest
  | .error e => .error (.corrupt (.badDigest e))

/-- The block with a digest. -/
def block? (archive : Archive) (digest : Digest) : Except ArchiveError (Option Block) :=
  match archive.chain[blockKey digest]? with
  | none => .ok none
  | some value =>
    match Block.decode value with
    | .ok block => .ok (some block)
    | .error e => .error (.codec e)

/-- The digest at a height. -/
def digestAt? (archive : Archive) (height : Nat) : Except ArchiveError (Option Digest) :=
  match archive.chain[heightKey height]? with
  | none => .ok none
  | some value => (readDigest value).map some

/-- The block at a height. -/
def blockAt? (archive : Archive) (height : Nat) : Except ArchiveError (Option Block) := do
  match ← archive.digestAt? height with
  | none => return none
  | some digest => archive.block? digest

/-- The digest of the tip. -/
def tip? (archive : Archive) : Except ArchiveError (Option Digest) :=
  match archive.chain[tipKey]? with
  | none => .ok none
  | some value => (readDigest value).map some

/-- The number of blocks, zero when nothing was stored. -/
def count (archive : Archive) : Except ArchiveError Nat :=
  match archive.chain[countKey]? with
  | none => .ok 0
  | some value =>
    if value.length = 8 then .ok (Bytes.littleEndianValue value)
    else .error (.corrupt (.badHeight value.length))

/-- `left` blocks from a height on; a gap is damage. -/
def blocksFrom (archive : Archive) (height : Nat) : Nat → Except ArchiveError (List Block)
  | 0 => .ok []
  | left + 1 =>
    match archive.blockAt? height with
    | .error e => .error e
    | .ok none => .error (.corrupt (.missingBlock height))
    | .ok (some block) => (blocksFrom archive (height + 1) left).map (block :: ·)

/-- All blocks in the order of their heights. -/
def blocks (archive : Archive) : Except ArchiveError (List Block) := do
  archive.blocksFrom 0 (← archive.count)

/-- Transactions that stand under their digests. -/
def readPool : List (Bytes × Bytes) → Except ArchiveError (List Transaction)
  | [] => .ok []
  | (key, value) :: rest =>
    match Transaction.decode value with
    | .error e => .error (.codec e)
    | .ok tx =>
      if tx.digest.bytes = key then (readPool rest).map (tx :: ·)
      else .error (.corrupt .misfiledTransaction)

/-- The waiting transactions in the order of their digests. -/
def transactions (archive : Archive) : Except ArchiveError (List Transaction) :=
  readPool archive.pool.toList

end Archive

end AttestedLedger
