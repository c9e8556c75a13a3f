/-
What a save leaves in the archive.

Four families of records share one database: blocks by digest, digests by height, the
digest of the tip and the number of blocks.  Their keys have different lengths, so writing
one never disturbs another.  `Filed` says that the first two hold some blocks; storing
further blocks from the next height on keeps what was filed and files the rest, whatever
other records there are.

A save writes only the blocks past the number already stored, so the chain is `laid` over
what is there.  That is enough when the stored blocks are the first of the chain, and then
`Keeps` holds: the archive has all blocks of the state, their number, the tip and the
waiting transactions.
-/
import AttestedLedger.Archive.Snapshot
import AttestedLedger.Proofs.Codec.RoundTrip
import AttestedLedger.Proofs.Codec.Scopes
import AttestedLedger.Proofs.Ledger.Indexes

namespace AttestedLedger

/-- Writing a record changes what stands under its key and nothing else. -/
theorem Records.getElem?_put (records : Records) (key value other : Bytes) :
    (records.insert key value)[other]? = if key = other then some value else records[other]? := by
  rw [Std.TreeMap.getElem?_insert]
  simp only [Std.compare_eq_iff_eq]

theorem Records.getElem?_put_self (records : Records) (key value : Bytes) :
    (records.insert key value)[key]? = some value := by
  rw [getElem?_put, if_pos rfl]

theorem Records.getElem?_put_of_length {key other : Bytes} (h : key.length ≠ other.length)
    (records : Records) (value : Bytes) : (records.insert key value)[other]? = records[other]? := by
  rw [getElem?_put, if_neg fun hc => h (congrArg _ hc)]

/-- A word determines the number it was written for. -/
theorem Bytes.littleEndian_inj {width m n : Nat} (hm : m < 256 ^ width) (hn : n < 256 ^ width)
    (h : littleEndian width m = littleEndian width n) : m = n := by
  have hvalue := congrArg littleEndianValue h
  rwa [littleEndianValue_littleEndian, littleEndianValue_littleEndian, Nat.mod_eq_of_lt hm,
    Nat.mod_eq_of_lt hn] at hvalue

namespace Archive

/-! ### Keys -/

@[simp] theorem length_blockKey (digest : Digest) : (blockKey digest).length = 33 := by
  rw [blockKey, List.length_cons, digest.length_eq]

@[simp] theorem length_heightKey (height : Nat) : (heightKey height).length = 9 := by
  rw [heightKey, List.length_cons, Bytes.length_bigEndian]

@[simp] theorem length_tipKey : tipKey.length = 3 := rfl

@[simp] theorem length_countKey : countKey.length = 6 := rfl

theorem blockKey_inj {digest other : Digest} (h : blockKey digest = blockKey other) :
    digest = other := by
  obtain ⟨bytes, hlength⟩ := digest
  obtain ⟨others, hothers⟩ := other
  obtain rfl : bytes = others := (List.cons.inj h).2
  rfl

theorem heightKey_inj {m n : Nat} (hm : m < 2 ^ 64) (hn : n < 2 ^ 64)
    (h : heightKey m = heightKey n) : m = n :=
  Bytes.littleEndian_inj hm hn (List.reverse_inj.mp (List.cons.inj h).2)

/-! ### Filing blocks -/

/-- Blocks that an archive can hold: each within the limits of the format, told apart by their
digests, and not more than a word can count. -/
structure Storable (blocks : List Block) : Prop where
  within : ∀ block ∈ blocks, block.WithinLimits
  apart : ∀ block ∈ blocks, ∀ other ∈ blocks, Sha256.TellsApart block.encode other.encode
  few : blocks.length < 2 ^ 64

/-- The records hold these blocks, by digest and by height. -/
structure Filed (records : Records) (blocks : List Block) : Prop where
  byHeight : ∀ height block, blocks[height]? = some block →
    records[heightKey height]? = some block.digest.bytes
  byDigest : ∀ block ∈ blocks, records[blockKey block.digest]? = some block.encode

variable {records : Records} {blocks : List Block}

theorem filed_nil (records : Records) : Filed records [] := ⟨nofun, nofun⟩

/-- A record of another family leaves the blocks filed. -/
theorem Filed.put (h : Filed records blocks) {key : Bytes} (hblock : key.length ≠ 33)
    (hheight : key.length ≠ 9) (value : Bytes) : Filed (records.insert key value) blocks where
  byHeight := by
    intro height block hblock
    rw [Records.getElem?_put_of_length (by rwa [length_heightKey])]
    exact h.byHeight height block hblock
  byDigest := by
    intro block hin
    rw [Records.getElem?_put_of_length (by rwa [length_blockKey])]
    exact h.byDigest block hin

/-- One more block, at the next height.  Where its digest is already in use, the bytes are the
same. -/
theorem Filed.concat (h : Filed records blocks) {block : Block} (hfew : blocks.length < 2 ^ 64)
    (hapart : ∀ other ∈ blocks, Sha256.TellsApart block.encode other.encode) :
    Filed ((records.insert (blockKey block.digest) block.encode).insert
      (heightKey blocks.length) block.digest.bytes) (blocks ++ [block]) where
  byHeight := by
    intro height other hother
    rcases Nat.lt_or_ge height blocks.length with hold | hnew
    · have hne : heightKey blocks.length ≠ heightKey height := by
        intro hc
        exact Nat.ne_of_gt hold (heightKey_inj hfew (Nat.lt_trans hold hfew) hc)
      rw [List.getElem?_append_left hold] at hother
      rw [Records.getElem?_put, if_neg hne, Records.getElem?_put_of_length (by simp)]
      exact h.byHeight height other hother
    · rw [List.getElem?_append_right hnew] at hother
      obtain ⟨hlt, rfl⟩ := List.getElem?_eq_some_iff.mp hother
      obtain rfl : height = blocks.length := by
        rw [List.length_singleton] at hlt
        omega
      rw [Records.getElem?_put_self, List.getElem_singleton]
  byDigest := by
    intro other hother
    rw [Records.getElem?_put_of_length (by simp), Records.getElem?_put]
    split
    · rename_i hkey
      have hdigest := blockKey_inj hkey
      rcases List.mem_append.mp hother with hold | hnew
      · rw [hapart other hold hdigest]
      · rw [List.mem_singleton.mp hnew]
    · rename_i hkey
      refine h.byDigest other ((List.mem_append.mp hother).resolve_right fun hnew => hkey ?_)
      rw [List.mem_singleton.mp hnew]

theorem applyAll_append (archive : Archive) (writes more : List Write) :
    archive.applyAll (writes ++ more) = (archive.applyAll writes).applyAll more :=
  List.foldl_append

/-- **Storing further blocks files them behind those that are there.** -/
theorem Filed.blocksWrites :
    ∀ (rest front : List Block) (archive : Archive), Filed archive.chain front →
      Storable (front ++ rest) →
      Filed (archive.applyAll (blocksWrites front.length rest)).chain (front ++ rest) := by
  intro rest
  induction rest with
  | nil =>
      intro front archive h _
      rwa [List.append_nil]
  | cons block rest ih =>
      intro front archive h hstorable
      have hsplit := List.append_cons front block rest
      have hin : block ∈ front ++ block :: rest := List.mem_append_right _ List.mem_cons_self
      have hfew : front.length < 2 ^ 64 :=
        Nat.lt_of_le_of_lt (List.prefix_append front (block :: rest)).length_le hstorable.few
      have hfiled := h.concat hfew fun other hother =>
        hstorable.apart block hin other (List.mem_append_left _ hother)
      rw [Archive.blocksWrites, applyAll_append, hsplit]
      have hnext := ih (front ++ [block]) (archive.applyAll (blockWrites front.length block)) hfiled
        (hsplit ▸ hstorable)
      rwa [List.length_append, List.length_singleton] at hnext

/-! ### Saving -/

/-- The archive holds these blocks and says how many they are. -/
structure Holds (archive : Archive) (blocks : List Block) : Prop where
  filed : Filed archive.chain blocks
  count : archive.count = .ok blocks.length

theorem holds_empty : empty.Holds [] where
  filed := filed_nil _
  count := by
    have hnone : empty.chain[countKey]? = none := Std.TreeMap.getElem?_emptyc
    rw [count, hnone]
    rfl

theorem count_of_record {archive : Archive} {n : Nat} (hfew : n < 2 ^ 64)
    (h : archive.chain[countKey]? = some (Bytes.littleEndian 8 n)) : archive.count = .ok n := by
  have hvalue : n % 256 ^ 8 = n := Nat.mod_eq_of_lt hfew
  rw [count, h]
  dsimp only
  rw [if_pos (Bytes.length_littleEndian 8 n), Bytes.littleEndianValue_littleEndian, hvalue]

end Archive

/-- A state that can be saved as it is. -/
structure NodeState.Storable (s : NodeState) : Prop where
  blocks : Archive.Storable s.chain.blocks
  pending : ∀ tx ∈ s.pool.pending, tx.WithinLimits

namespace Archive

/-- The archive is as a save of the state leaves it. -/
structure Keeps (archive : Archive) (s : NodeState) : Prop where
  holds : archive.Holds s.chain.blocks
  tip : archive.chain[tipKey]? = some s.chain.tipDigest.bytes
  pool : archive.pool = poolRecords s.pool.pending

/-- The archive holds these blocks, beside a tip and waiting transactions that may be of other
states. -/
structure Carries (archive : Archive) (blocks : List Block) (tip : Digest)
    (pending : List Transaction) : Prop where
  holds : archive.Holds blocks
  tip : archive.chain[tipKey]? = some tip.bytes
  pool : archive.pool = poolRecords pending

/-- The last writes of a save, which come after the blocks. -/
theorem Filed.carries {archive : Archive} {blocks : List Block} (h : Filed archive.chain blocks)
    (hfew : blocks.length < 2 ^ 64) (tip : Digest) (pending : List Transaction) :
    (archive.applyAll [countWrite blocks.length, tipWrite tip,
      .replacePool pending]).Carries blocks tip pending where
  holds :=
    { filed := (h.put (by simp) (by simp) _).put (by simp) (by simp) _
      count := by
        refine count_of_record hfew ?_
        show ((archive.chain.insert countKey _).insert tipKey _)[countKey]? = _
        rw [Records.getElem?_put_of_length (by simp), Records.getElem?_put_self] }
  tip := Records.getElem?_put_self _ _ _
  pool := rfl

/-- The blocks that are stored once a chain is saved over others: the chain's if it is shorter,
and otherwise the old ones with what the chain has past their number. -/
def laid (stored blocks : List Block) : List Block :=
  if blocks.length < stored.length then blocks else stored ++ blocks.drop stored.length

theorem laid_of_shorter {stored blocks : List Block} (h : blocks.length < stored.length) :
    laid stored blocks = blocks := if_pos h

theorem laid_of_not_shorter {stored blocks : List Block} (h : ¬blocks.length < stored.length) :
    laid stored blocks = stored ++ blocks.drop stored.length := if_neg h

theorem length_laid (stored blocks : List Block) : (laid stored blocks).length = blocks.length := by
  by_cases h : blocks.length < stored.length
  · rw [laid_of_shorter h]
  · rw [laid_of_not_shorter h, List.length_append, List.length_drop]
    omega

/-- The chain is stored as it is exactly if it is shorter than what was stored or begins with
it. -/
theorem laid_eq_iff {stored blocks : List Block} :
    laid stored blocks = blocks ↔ blocks.length < stored.length ∨ stored <+: blocks := by
  by_cases h : blocks.length < stored.length
  · exact iff_of_true (laid_of_shorter h) (Or.inl h)
  · rw [laid_of_not_shorter h, ← List.prefix_iff_eq_append, or_iff_right h]

/-- A chain that is not shorter than what is stored is written from there on. -/
theorem writesPast_of_not_shorter {stored : Nat} {s : NodeState}
    (h : ¬s.chain.blocks.length < stored) :
    writesPast stored s = blocksWrites stored (s.chain.blocks.drop stored) ++
      [countWrite s.chain.blocks.length, tipWrite s.chain.tipDigest,
        .replacePool s.pool.pending] := by
  simp only [writesPast, if_neg h, List.nil_append]

/-- **A save lays the chain over the blocks that are stored**, and gives the archive its tip and its
waiting transactions. -/
theorem Holds.save_laid {archive : Archive} {stored : List Block} {s : NodeState}
    (h : archive.Holds stored) (hs : Storable (laid stored s.chain.blocks)) :
    ∃ saved, archive.save s = .ok saved ∧
      saved.Carries (laid stored s.chain.blocks) s.chain.tipDigest s.pool.pending := by
  have hwrites : ∃ writes, writesPast stored.length s = writes ++
      [countWrite s.chain.blocks.length, tipWrite s.chain.tipDigest,
        .replacePool s.pool.pending] ∧
      Filed (archive.applyAll writes).chain (laid stored s.chain.blocks) := by
    by_cases hshorter : s.chain.blocks.length < stored.length
    · refine ⟨.clearChain :: blocksWrites 0 s.chain.blocks, ?_, ?_⟩
      · rw [writesPast]
        simp only [if_pos hshorter, List.drop_zero, List.cons_append, List.nil_append]
      · rw [laid_of_shorter hshorter] at hs ⊢
        exact Filed.blocksWrites _ [] (archive.apply .clearChain) (filed_nil _) hs
    · refine ⟨blocksWrites stored.length (s.chain.blocks.drop stored.length),
        writesPast_of_not_shorter hshorter, ?_⟩
      rw [laid_of_not_shorter hshorter] at hs ⊢
      exact Filed.blocksWrites _ stored archive h.filed hs
  obtain ⟨writes, hwrites, hfiled⟩ := hwrites
  refine ⟨archive.applyAll (writesPast stored.length s), ?_, ?_⟩
  · rw [Archive.save, saveWrites, h.count]
    rfl
  · rw [hwrites, applyAll_append, ← length_laid stored s.chain.blocks]
    exact hfiled.carries hs.few _ _

/-- **A save on top of the chain's first blocks keeps the whole state.** -/
theorem Holds.save {archive : Archive} {stored : List Block} {s : NodeState}
    (h : archive.Holds stored) (hfirst : stored <+: s.chain.blocks) (hs : s.Storable) :
    ∃ saved, archive.save s = .ok saved ∧ saved.Keeps s := by
  have hlaid := laid_eq_iff.mpr (Or.inr hfirst)
  obtain ⟨saved, hsave, hcarries⟩ := h.save_laid (hlaid ▸ hs.blocks)
  rw [hlaid] at hcarries
  exact ⟨saved, hsave, hcarries.holds, hcarries.tip, hcarries.pool⟩

end Archive

end AttestedLedger
