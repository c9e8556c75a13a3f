/-
Every chain a node can hold tells a valid history.

The state of a node is changed by a handful of operations, and only one of them, accepting
a block, touches the chain.  `StateOp` is the type of these operations, with arguments that
may come from anywhere: a block or a clock reading an operation is given is never assumed
to be sensible.

`ValidHistory` is what a list of blocks must be for the parameters, said without the
indexes the chain keeps: it starts with genesis, every later block follows its parent by
the rules, and no transaction occurs twice.  The invariant that carries it through a run
is `NodeState.Lawful`: the blocks are a valid history, the indexes agree with the blocks,
and the rules are those of the parameters.  `reachable_history_valid` is the result.
-/
import AttestedLedger.Mining.Candidate
import AttestedLedger.Proofs.Ledger.Acceptance
import AttestedLedger.Proofs.Ledger.Indexes
import Mathlib.Algebra.Order.Floor.Div

namespace AttestedLedger

/-! ### What a valid history is -/

/-- A verifier set that is a quorum of the miners of the blocks `before`: one verifier for
every `divisor` of them, rounded up. -/
structure QuorumOf (divisor : Nat) (before : List Block) (keys : List MinerKey)
    (signatures : List Signature) : Prop where
  paired : signatures.length = keys.length
  distinct : keys.Nodup
  enough : (minersOf before).card ⌈/⌉ max divisor 1 ≤ keys.length
  miners : ∀ key ∈ keys, ∃ block ∈ before, block.miner = key

/-- The difficulty of the block at a height, from its parent.  The parent of the first mined
block is genesis, in whose place a predecessor is imagined. -/
def retargetedAt (p : Params) (height : Nat) (parent : Block) : UInt64 :=
  if height = 1 then (Retarget.ofParams p).next Retarget.bootstrapTime p.initialDifficulty
  else (Retarget.ofParams p).next parent.miningTime parent.difficulty

/-- A block follows `parent`, the last of the blocks `before`. -/
structure Follows (p : Params) (before : List Block) (parent block : Block) : Prop where
  linked : block.previous = parent.digest
  nonempty : block.transactions ≠ []
  work : block.workDigest.top64.toNat ≤ (2 ^ 64 - 1) / max block.difficulty.toNat 1
  ordered : parent.timestamp ≤ block.timestamp
  difficulty : block.difficulty = retargetedAt p before.length parent
  preSet : QuorumOf p.quorumDivisor.toNat before block.preVerifiers block.preSignatures
  postSet : QuorumOf p.quorumDivisor.toNat before block.verifiers block.signatures
  attested : ∀ pair ∈ block.verifiers.zip block.signatures,
    pair.1.verifies block.payload pair.2 = true

/-- A list of blocks that a chain may hold under the parameters, genesis first. -/
structure ValidHistory (p : Params) (blocks : List Block) : Prop where
  genesis : blocks[0]? = some .genesis
  succession : ∀ (i : Nat) (parent block : Block), blocks[i]? = some parent →
    blocks[i + 1]? = some block → Follows p (blocks.take (i + 1)) parent block
  unrepeated : ((blocks.flatMap (·.transactions)).map (·.digest)).Nodup

/-! ### From the rules to the history -/

theorem quorumSize_eq_ceilDiv (miners divisor : Nat) :
    quorumSize miners divisor = miners ⌈/⌉ max divisor 1 := by
  have hpos : 0 < max divisor 1 := Nat.lt_of_lt_of_le Nat.one_pos (Nat.le_max_right _ _)
  show miners / max divisor 1 + (if miners % max divisor 1 = 0 then 0 else 1) = _
  generalize max divisor 1 = d at hpos ⊢
  rw [Nat.ceilDiv_eq_add_pred_div]
  have hsplit := Nat.div_add_mod miners d
  have hmod := Nat.mod_lt miners hpos
  generalize miners / d = q at hsplit ⊢
  generalize miners % d = r at hsplit hmod ⊢
  by_cases hexact : r = 0
  · have hsum : miners + d - 1 = (d - 1) + d * q := by omega
    rw [if_pos hexact, hsum, Nat.add_mul_div_left _ _ hpos, Nat.div_eq_of_lt (by omega),
      Nat.zero_add,
      Nat.add_zero]
  · have hmul : d * (q + 1) = d * q + d := Nat.mul_succ d q
    have hsum : miners + d - 1 = (r - 1) + d * (q + 1) := by omega
    rw [if_neg hexact, hsum, Nat.add_mul_div_left _ _ hpos, Nat.div_eq_of_lt (by omega),
      Nat.zero_add]

/-- A digest meets a difficulty when its head is at most the largest word divided by it. -/
theorem Block.top64_le_of_hasWork {block : Block} (h : block.hasWork = true) :
    block.workDigest.top64.toNat ≤ (2 ^ 64 - 1) / max block.difficulty.toNat 1 := by
  have hle : block.workDigest.top64 ≤ (Target.ofDifficulty block.difficulty).threshold :=
    of_decide_eq_true h
  have hbound : (UInt64.size - 1) / max block.difficulty.toNat 1 < UInt64.size :=
    Nat.lt_of_le_of_lt (Nat.div_le_self _ _) (by decide)
  rw [UInt64.le_iff_toNat_le, Target.ofDifficulty, UInt64.toNat_ofNat', Nat.mod_eq_of_lt hbound]
    at hle
  exact hle

namespace Chain.Indexed

variable {chain : Chain} {p : Params}

/-- Blocks below the height of a chain are all its blocks. -/
theorem take_height (chain : Chain) : chain.blocks.take chain.height = chain.blocks :=
  List.take_of_length_le (Nat.le_of_eq (length_blocks chain))

theorem requiredQuorum_eq (h : chain.Indexed) :
    (Rules.ofParams p).requiredQuorum chain
      = (minersOf chain.blocks).card ⌈/⌉ max p.quorumDivisor.toNat 1 := by
  rw [Rules.requiredQuorum, quorumSize_eq_ceilDiv, h.minerCount_eq, take_height]
  rfl

/-- A set that the chain admits is a quorum of the miners of its blocks. -/
theorem quorumOf (h : chain.Indexed) {keys : List MinerKey} {signatures : List Signature}
    (hset : chain.Admits ((Rules.ofParams p).requiredQuorum chain) keys signatures) :
    QuorumOf p.quorumDivisor.toNat chain.blocks keys signatures where
  paired := hset.paired.symm
  distinct := hset.distinct
  enough := by
    rw [← h.requiredQuorum_eq]
    exact hset.quorum
  miners := by
    intro key hkey
    have hmem := h.isNewMiner_eq_false_iff.mp (hset.eligible key hkey)
    rw [take_height, mem_minersOf] at hmem
    exact List.mem_map.mp hmem.2

theorem nextDifficulty_eq (chain : Chain) :
    (Rules.ofParams p).nextDifficulty chain = retargetedAt p chain.height chain.tip := by
  rw [Rules.nextDifficulty, lastMined?, retargetedAt, height]
  cases chain.earlier with
  | nil => rfl
  | cons before rest => rfl

/-- An acceptable block follows the tip. -/
theorem follows (h : chain.Indexed) {now : UInt64} {block : Block}
    (hok : (Rules.ofParams p).Acceptable chain now block) :
    Follows p chain.blocks chain.tip block where
  linked := hok.onTip.trans h.tip
  nonempty := hok.nonempty
  work := Block.top64_le_of_hasWork hok.work
  ordered := hok.notBefore
  difficulty := by rw [hok.difficulty, nextDifficulty_eq, length_blocks]
  preSet := h.quorumOf hok.preSet
  postSet := h.quorumOf hok.postSet
  attested := hok.attested

end Chain.Indexed

theorem validHistory_genesis (p : Params) : ValidHistory p [.genesis] where
  genesis := rfl
  succession := by
    intro i parent block _ hblock
    rw [List.getElem?_cons_succ] at hblock
    exact absurd hblock (by simp)
  unrepeated := List.nodup_nil

/-- **A valid history with one more acceptable block is a valid history.** -/
theorem ValidHistory.push {p : Params} {chain : Chain} (hvalid : ValidHistory p chain.blocks)
    (hindexed : chain.Indexed) {now : UInt64} {block : Block}
    (hok : (Rules.ofParams p).Acceptable chain now block) :
    ValidHistory p (chain.push block).blocks := by
  rw [Chain.blocks_push]
  refine ⟨?_, ?_, ?_⟩
  · rw [List.getElem?_append_left (by rw [Chain.length_blocks]; exact Nat.succ_pos _)]
    exact hvalid.genesis
  · intro i parent child hparent hchild
    rcases Nat.lt_trichotomy (i + 1) chain.height with hlt | heq | hgt
    · have hlen : i + 1 < chain.blocks.length := by rwa [Chain.length_blocks]
      rw [List.getElem?_append_left (Nat.lt_of_succ_lt hlen)] at hparent
      rw [List.getElem?_append_left hlen] at hchild
      rw [List.take_append_of_le_length (Nat.le_of_lt hlen)]
      exact hvalid.succession i parent child hparent hchild
    · -- the new block, whose parent is the old tip
      have hlen : chain.blocks.length = i + 1 := by rw [Chain.length_blocks, heq]
      have hi : i = chain.earlier.length := Nat.succ.inj heq
      rw [List.getElem?_append_left (by rw [hlen]; exact Nat.lt_succ_self i), hi,
        Chain.getElem?_blocks_tip] at hparent
      rw [List.getElem?_append_right (Nat.le_of_eq hlen), hlen, Nat.sub_self] at hchild
      obtain rfl : chain.tip = parent := Option.some.inj hparent
      obtain rfl : block = child := Option.some.inj hchild
      rw [List.take_append_of_le_length (Nat.le_of_eq hlen.symm), ← hlen, List.take_length]
      exact hindexed.follows hok
    · have hlen : (chain.blocks ++ [block]).length ≤ i + 1 := by
        rw [List.length_append, Chain.length_blocks]
        exact hgt
      rw [List.getElem?_eq_none hlen] at hchild
      exact absurd hchild (by simp)
  · rw [List.flatMap_append, List.map_append, List.flatMap_singleton]
    refine List.nodup_append.mpr ⟨hvalid.unrepeated, hok.distinct, ?_⟩
    rintro old hold new hnew rfl
    obtain ⟨tx, htx, hdigest⟩ := List.mem_map.mp hnew
    obtain ⟨before, hbefore, hsame⟩ := List.mem_map.mp hold
    obtain ⟨home, hhome, hin⟩ := List.mem_flatMap.mp hbefore
    -- an old transaction with the digest of a new one would be finalized
    have hfinal := (hindexed.finalized tx.digest).mpr
      ⟨home, hhome, before, hin, hsame.trans hdigest.symm⟩
    rw [hok.fresh tx htx] at hfinal
    exact absurd hfinal Bool.false_ne_true

/-! ### Operations on a node's state -/

/-- One operation on a node's state. -/
inductive StateOp where
  | submit (tx : Transaction)
  | accept (now : UInt64) (block : Block)
  | build (miner : MinerKey) (now : UInt64)
  | resync (candidate : Block) (now : UInt64)
  | release (candidate : Block)
  /-- The transactions of a block just mined leave the pool. -/
  | complete (block : Block)
  | reinstate (block : Block)

namespace NodeState

/-- The state after an operation. -/
def apply (s : NodeState) : StateOp → NodeState
  | .submit tx => (s.submit tx).1
  | .accept now block =>
    match s.acceptBlock now block with
    | .ok accepted => accepted
    | .error _ => s
  | .build miner now => (s.buildCandidate miner now).1
  | .resync candidate now => (s.resync candidate now).1
  | .release candidate => s.release candidate
  | .complete block => { s with pool := (s.pool.markMined block.transactions).prune }
  | .reinstate block => s.reinstate block

/-- The state after operations in a row. -/
def applyAll (s : NodeState) (ops : List StateOp) : NodeState := ops.foldl apply s

/-- Everything but the pool is the same. -/
structure SameLedger (s t : NodeState) : Prop where
  chain : t.chain = s.chain
  rules : t.rules = s.rules
  signal : t.signal = s.signal

theorem SameLedger.refl (s : NodeState) : s.SameLedger s := ⟨rfl, rfl, rfl⟩

theorem SameLedger.trans {s t u : NodeState} (hst : s.SameLedger t) (htu : t.SameLedger u) :
    s.SameLedger u :=
  ⟨htu.chain.trans hst.chain, htu.rules.trans hst.rules, htu.signal.trans hst.signal⟩

theorem SameLedger.append {s t : NodeState} (h : s.SameLedger t) (block : Block) :
    (s.append block).SameLedger (t.append block) := by
  refine ⟨?_, h.rules, ?_⟩
  · show t.chain.push block = s.chain.push block
    rw [h.chain]
  · show (⟨(t.chain.push block).tipDigest, t.signal.raised + 1⟩ : TipSignal) = _
    rw [h.chain, h.signal]
    rfl

theorem sameLedger_submit (s : NodeState) (tx : Transaction) : s.SameLedger (s.submit tx).1 := by
  rw [submit]
  split
  · exact .refl s
  · exact ⟨rfl, rfl, rfl⟩

theorem sameLedger_submitAll :
    ∀ (transactions : List Transaction) (s : NodeState), s.SameLedger (s.submitAll transactions) := by
  intro transactions
  induction transactions with
  | nil => intro s; exact .refl s
  | cons tx rest ih => intro s; exact (sameLedger_submit s tx).trans (ih (s.submit tx).1)

theorem sameLedger_buildCandidate (s : NodeState) (miner : MinerKey) (now : UInt64) :
    s.SameLedger (s.buildCandidate miner now).1 := by
  rw [buildCandidate]
  split
  · exact .refl s
  · dsimp only
    split <;> exact ⟨rfl, rfl, rfl⟩

theorem sameLedger_resync (s : NodeState) (candidate : Block) (now : UInt64) :
    s.SameLedger (s.resync candidate now).1 := by
  rw [resync]
  split
  · exact .refl s
  · dsimp only
    split
    · exact ⟨rfl, rfl, rfl⟩
    · have hbuild := sameLedger_buildCandidate
        (release { s with pool := s.pool.prune } candidate) candidate.miner now
      exact ⟨hbuild.chain, hbuild.rules, hbuild.signal⟩

/-- A block is accepted exactly when it is acceptable, and then it is appended. -/
theorem acceptBlock_eq_ok_iff {s t : NodeState} {now : UInt64} {block : Block} :
    s.acceptBlock now block = .ok t ↔
      s.rules.Acceptable s.chain now block ∧ t = s.append block := by
  rw [acceptBlock, ← Rules.check_eq_ok_iff]
  cases s.rules.check s.chain now block with
  | error e => simp
  | ok _ => simp [eq_comm]

/-- **What one operation can do to the ledger**: nothing, or append an acceptable block. -/
theorem apply_cases (s : NodeState) (op : StateOp) :
    s.SameLedger (s.apply op) ∨
      ∃ now block, s.rules.Acceptable s.chain now block ∧ s.apply op = s.append block := by
  cases op with
  | submit tx => exact Or.inl (sameLedger_submit s tx)
  | accept now block =>
      rw [apply]
      cases haccept : s.acceptBlock now block with
      | error e => exact Or.inl (.refl s)
      | ok t =>
          obtain ⟨hok, rfl⟩ := acceptBlock_eq_ok_iff.mp haccept
          exact Or.inr ⟨now, block, hok, rfl⟩
  | build miner now => exact Or.inl (sameLedger_buildCandidate s miner now)
  | resync candidate now => exact Or.inl (sameLedger_resync s candidate now)
  | release candidate => exact Or.inl ⟨rfl, rfl, rfl⟩
  | complete block => exact Or.inl ⟨rfl, rfl, rfl⟩
  | reinstate block => exact Or.inl ⟨rfl, rfl, rfl⟩

/-! ### The invariant of a run -/

/-- The ledger of a state is that of the parameters, with a valid history and indexes that
agree with it. -/
structure Lawful (p : Params) (s : NodeState) : Prop where
  rules : s.rules = .ofParams p
  indexed : s.chain.Indexed
  history : ValidHistory p s.chain.blocks

theorem lawful_start (p : Params) : (start p).Lawful p :=
  ⟨rfl, Chain.indexed_start, validHistory_genesis p⟩

theorem Lawful.of_sameLedger {p : Params} {s t : NodeState} (h : s.Lawful p)
    (hsame : s.SameLedger t) : t.Lawful p := by
  refine ⟨hsame.rules.trans h.rules, ?_, ?_⟩
  · rw [hsame.chain]
    exact h.indexed
  · rw [hsame.chain]
    exact h.history

theorem Lawful.append {p : Params} {s : NodeState} (h : s.Lawful p) {now : UInt64} {block : Block}
    (hok : s.rules.Acceptable s.chain now block) : (s.append block).Lawful p := by
  rw [h.rules] at hok
  exact ⟨h.rules, h.indexed.push block, h.history.push h.indexed hok⟩

theorem Lawful.apply {p : Params} {s : NodeState} (h : s.Lawful p) (op : StateOp) :
    (s.apply op).Lawful p := by
  rcases apply_cases s op with hsame | ⟨now, block, hok, happend⟩
  · exact h.of_sameLedger hsame
  · rw [happend]
    exact h.append hok

theorem Lawful.applyAll {p : Params} :
    ∀ (ops : List StateOp) {s : NodeState}, s.Lawful p → (s.applyAll ops).Lawful p := by
  intro ops
  induction ops with
  | nil => intro s h; exact h
  | cons op rest ih => intro s h; exact ih (h.apply op)

/-- **Whatever operations a fresh node performs, its chain is a valid history.** -/
theorem reachable_history_valid (p : Params) (ops : List StateOp) :
    ValidHistory p ((start p).applyAll ops).chain.blocks :=
  ((lawful_start p).applyAll ops).history

end NodeState

end AttestedLedger
