/-
When the rules accept a block.

`Rules.check` tries the rules one after another and stops at the first that fails.
`Rules.Acceptable` lists what they ask for as one record of facts, and `check_eq_ok_iff`
says that the two agree: the check succeeds exactly on the acceptable blocks.  So what is
proved of blocks that entered a chain reads the record off, and what is proved of blocks
that will be accepted fills it in, and neither looks at the order in which the rules are
tried.
-/
import AttestedLedger.Ledger.Rules
import Mathlib.Data.List.Nodup

namespace AttestedLedger

/-- The verifiers of a set are paired with signatures, reach the quorum, are distinct, and
have all mined. -/
structure Chain.Admits (chain : Chain) (required : Nat) (keys : List MinerKey)
    (signatures : List Signature) : Prop where
  paired : keys.length = signatures.length
  quorum : required ≤ keys.length
  distinct : keys.Nodup
  eligible : ∀ key ∈ keys, chain.isNewMiner key chain.height = false

namespace Rules

/-- What the rules ask of the next block of a chain, at a reading of the clock. -/
structure Acceptable (rules : Rules) (chain : Chain) (now : UInt64) (block : Block) : Prop where
  onTip : block.previous = chain.tipDigest
  nonempty : block.transactions ≠ []
  difficulty : block.difficulty = rules.nextDifficulty chain
  work : block.hasWork = true
  notBefore : chain.tip.timestamp ≤ block.timestamp
  notAfter : block.timestamp.toNat ≤ rules.latestTimestamp now
  distinct : (block.transactions.map (·.digest)).Nodup
  fresh : ∀ tx ∈ block.transactions, chain.isFinalized tx.digest = false
  preSet : chain.Admits (rules.requiredQuorum chain) block.preVerifiers block.preSignatures
  postSet : chain.Admits (rules.requiredQuorum chain) block.verifiers block.signatures
  attested : ∀ pair ∈ block.verifiers.zip block.signatures,
    pair.1.verifies block.payload pair.2 = true

/-! ### The parts of the check -/

theorem checkTimestamp_eq_ok_iff {rules : Rules} {chain : Chain} {timestamp now : UInt64} :
    rules.checkTimestamp chain timestamp now = .ok () ↔
      chain.tip.timestamp ≤ timestamp ∧ timestamp.toNat ≤ rules.latestTimestamp now := by
  rw [checkTimestamp]
  split
  · rename_i hold
    refine ⟨?_, ?_⟩
    · intro h
      exact absurd h (by simp)
    · intro hboth
      obtain ⟨hle, -⟩ := hboth
      exact absurd hold (UInt64.not_lt.mpr hle)
  · rename_i hold
    rw [UInt64.not_lt] at hold
    split
    · rename_i hlate
      refine ⟨?_, ?_⟩
      · intro h
        exact absurd h (by simp)
      · intro hboth
        obtain ⟨-, hle⟩ := hboth
        exact absurd hlate (Nat.not_lt.mpr hle)
    · rename_i hlate
      exact ⟨fun _ => ⟨hold, Nat.not_lt.mp hlate⟩, fun _ => rfl⟩

theorem checkTransactions_eq_ok_iff {chain : Chain} :
    ∀ (transactions : List Transaction) (seen : List Digest),
      checkTransactions chain seen transactions = .ok () ↔
        (transactions.map (·.digest)).Nodup ∧
          ∀ tx ∈ transactions, tx.digest ∉ seen ∧ chain.isFinalized tx.digest = false := by
  intro transactions
  induction transactions with
  | nil => intro seen; simp [checkTransactions]
  | cons tx rest ih =>
      intro seen
      rw [checkTransactions]
      by_cases hseen : tx.digest ∈ seen
      · simp [hseen]
      by_cases hfinal : chain.isFinalized tx.digest = true
      · simp [hseen, hfinal]
      simp only [List.contains_eq_mem, decide_eq_true_eq]
      rw [if_neg hseen, if_neg hfinal, ih]
      rw [Bool.not_eq_true] at hfinal
      simp only [List.map_cons, List.nodup_cons, List.mem_cons, forall_eq_or_imp, not_or]
      refine ⟨?_, ?_⟩
      · intro hboth
        obtain ⟨hnodup, hall⟩ := hboth
        refine ⟨⟨?_, hnodup⟩, ⟨hseen, hfinal⟩, fun t ht => ⟨(hall t ht).1.2, (hall t ht).2⟩⟩
        intro hmem
        obtain ⟨t, ht, hdigest⟩ := List.mem_map.mp hmem
        exact (hall t ht).1.1 hdigest
      · intro hfacts
        obtain ⟨⟨hnew, hnodup⟩, -, hall⟩ := hfacts
        refine ⟨hnodup, fun t ht => ⟨⟨fun hc => hnew ?_, (hall t ht).1⟩, (hall t ht).2⟩⟩
        exact hc ▸ List.mem_map_of_mem ht

theorem checkVerifiers_eq_ok_iff {chain : Chain} {set : VerifierSet} :
    ∀ (keys seen : List MinerKey),
      checkVerifiers chain set seen keys = .ok () ↔
        keys.Nodup ∧ ∀ key ∈ keys, key ∉ seen ∧ chain.isNewMiner key chain.height = false := by
  intro keys
  induction keys with
  | nil => intro seen; simp [checkVerifiers]
  | cons key rest ih =>
      intro seen
      rw [checkVerifiers]
      by_cases hseen : key ∈ seen
      · simp [hseen]
      by_cases hnew : chain.isNewMiner key chain.height = true
      · simp [hseen, hnew]
      simp only [List.contains_eq_mem, decide_eq_true_eq]
      rw [if_neg hseen, if_neg hnew, ih]
      rw [Bool.not_eq_true] at hnew
      simp only [List.nodup_cons, List.mem_cons, forall_eq_or_imp, not_or]
      refine ⟨?_, ?_⟩
      · intro hboth
        obtain ⟨hnodup, hall⟩ := hboth
        refine ⟨⟨fun hmem => (hall key hmem).1.1 rfl, hnodup⟩, ⟨hseen, hnew⟩, ?_⟩
        exact fun k hk => ⟨(hall k hk).1.2, (hall k hk).2⟩
      · intro hfacts
        obtain ⟨⟨hfirst, hnodup⟩, -, hall⟩ := hfacts
        refine ⟨hnodup, fun k hk => ⟨⟨fun hc => hfirst ?_, (hall k hk).1⟩, (hall k hk).2⟩⟩
        exact hc ▸ hk

theorem checkSet_eq_ok_iff {chain : Chain} {set : VerifierSet} {keys : List MinerKey}
    {signatures : List Signature} {required : Nat} :
    checkSet chain set keys signatures required = .ok () ↔
      chain.Admits required keys signatures := by
  rw [checkSet]
  by_cases hpaired : keys.length = signatures.length
  · rw [if_neg (not_not_intro hpaired)]
    by_cases hquorum : keys.length < required
    · rw [if_pos hquorum]
      refine ⟨?_, ?_⟩
      · intro h
        exact absurd h (by simp)
      · intro h
        exact absurd h.quorum (Nat.not_le.mpr hquorum)
    · rw [if_neg hquorum, checkVerifiers_eq_ok_iff]
      refine ⟨?_, ?_⟩
      · intro hboth
        obtain ⟨hnodup, hall⟩ := hboth
        exact ⟨hpaired, Nat.not_lt.mp hquorum, hnodup, fun key hkey => (hall key hkey).2⟩
      · intro h
        exact ⟨h.distinct, fun key hkey => ⟨List.not_mem_nil, h.eligible key hkey⟩⟩
  · rw [if_pos hpaired]
    refine ⟨?_, ?_⟩
    · intro h
      exact absurd h (by simp)
    · intro h
      exact absurd h.paired hpaired

theorem checkSignatures_eq_ok_iff {payload : Bytes} :
    ∀ pairs : List (MinerKey × Signature),
      checkSignatures payload pairs = .ok () ↔
        ∀ pair ∈ pairs, pair.1.verifies payload pair.2 = true := by
  intro pairs
  induction pairs with
  | nil => simp [checkSignatures]
  | cons pair rest ih =>
      obtain ⟨key, signature⟩ := pair
      rw [checkSignatures, List.forall_mem_cons]
      by_cases hvalid : key.verifies payload signature = true
      · rw [if_pos hvalid, ih]
        exact ⟨fun h => ⟨hvalid, h⟩, fun h => h.2⟩
      · rw [if_neg hvalid]
        refine ⟨?_, ?_⟩
        · intro h
          exact absurd h (by simp)
        · intro hboth
          obtain ⟨h, -⟩ := hboth
          exact absurd h hvalid

/-! ### The whole check -/

/-- A refusal in front of other checks succeeds exactly when it does not apply and they do. -/
theorem refuse_eq_ok_iff {c : Prop} {_ : Decidable c} {e : Rejection}
    {next : PUnit → Except Rejection Unit} :
    (if c then (throw e : Except Rejection PUnit) >>= next else next ⟨⟩) = .ok () ↔
      ¬c ∧ next ⟨⟩ = .ok () := by
  by_cases hc : c
  · simp [hc, throw, throwThe, MonadExceptOf.throw, bind, Except.bind]
  · simp [hc]

/-- Two checks in a row succeed exactly when both do. -/
theorem both_eq_ok_iff {first : Except Rejection Unit} {next : Unit → Except Rejection Unit} :
    first >>= next = .ok () ↔ first = .ok () ∧ next () = .ok () := by
  cases first with
  | error e => simp [bind, Except.bind]
  | ok _ => simp [bind, Except.bind]

/-- **A block passes the check exactly when it is acceptable.** -/
theorem check_eq_ok_iff {rules : Rules} {chain : Chain} {now : UInt64} {block : Block} :
    rules.check chain now block = .ok () ↔ rules.Acceptable chain now block := by
  have hparts : rules.check chain now block = .ok () ↔
      block.previous = chain.tipDigest ∧ block.transactions ≠ [] ∧
        block.difficulty = rules.nextDifficulty chain ∧ block.hasWork = true ∧
        (chain.tip.timestamp ≤ block.timestamp ∧
          block.timestamp.toNat ≤ rules.latestTimestamp now) ∧
        ((block.transactions.map (·.digest)).Nodup ∧
          ∀ tx ∈ block.transactions, tx.digest ∉ [] ∧ chain.isFinalized tx.digest = false) ∧
        chain.Admits (rules.requiredQuorum chain) block.preVerifiers block.preSignatures ∧
        chain.Admits (rules.requiredQuorum chain) block.verifiers block.signatures ∧
        ∀ pair ∈ block.verifiers.zip block.signatures,
          pair.1.verifies block.payload pair.2 = true := by
    unfold check
    refine refuse_eq_ok_iff.trans (and_congr not_ne_iff ?_)
    refine refuse_eq_ok_iff.trans (and_congr (by rw [List.isEmpty_iff]) ?_)
    refine refuse_eq_ok_iff.trans (and_congr not_ne_iff ?_)
    refine refuse_eq_ok_iff.trans (and_congr (by rw [Bool.not_eq_true', Bool.not_eq_false]) ?_)
    refine both_eq_ok_iff.trans (and_congr checkTimestamp_eq_ok_iff ?_)
    refine both_eq_ok_iff.trans (and_congr (checkTransactions_eq_ok_iff _ _) ?_)
    refine both_eq_ok_iff.trans (and_congr checkSet_eq_ok_iff ?_)
    exact both_eq_ok_iff.trans (and_congr checkSet_eq_ok_iff (checkSignatures_eq_ok_iff _))
  rw [hparts]
  refine ⟨?_, ?_⟩
  · intro hfacts
    obtain ⟨honTip, hsome, hdiff, hwork, htime, htxs, hpre, hpost, hsigned⟩ := hfacts
    exact ⟨honTip, hsome, hdiff, hwork, htime.1, htime.2, htxs.1, fun tx htx => (htxs.2 tx htx).2,
      hpre, hpost, hsigned⟩
  · intro h
    exact ⟨h.onTip, h.nonempty, h.difficulty, h.work, ⟨h.notBefore, h.notAfter⟩,
      ⟨h.distinct, fun tx htx => ⟨List.not_mem_nil, h.fresh tx htx⟩⟩, h.preSet, h.postSet,
      h.attested⟩

end Rules

end AttestedLedger
