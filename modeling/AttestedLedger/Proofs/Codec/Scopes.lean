/-
What each encoding of a block covers.

The three scopes leave out nested parts of a block: the full encoding nothing, the attested
one the verifiers of the finished block, the sealed one also the time of the search.
`Block.Agree` says that two blocks have the same fields as far as a scope looks, times
being compared as they are written.  `encodeIn_eq_iff` says that the bytes are equal for
exactly these blocks: nothing a scope covers is lost between two fields, and nothing beyond
it shows.

What is read off the digests depends on their telling the bytes at hand apart.
`Sha256.TellsApart` is that, for two strings: nothing is asked of the hash at large.
-/
import AttestedLedger.Proofs.Codec.RoundTrip

namespace AttestedLedger

/-- The digests of two strings are different unless the strings are the same. -/
def Sha256.TellsApart (x y : Bytes) : Prop := digest x = digest y → x = y

theorem Sha256.TellsApart.digest_eq_iff {x y : Bytes} (h : TellsApart x y) :
    digest x = digest y ↔ x = y :=
  ⟨h, congrArg digest⟩

/-! ### Lists of keys and signatures -/

/-- Encodings of values that are determined by what is encoded of them. -/
theorem PrefixFree.comap {α β : Type} {valid : β → Prop} {encode : β → Bytes}
    (h : PrefixFree valid encode) {part : α → β} (hpart : Function.Injective part) :
    PrefixFree (fun x => valid (part x)) (fun x => encode (part x)) := by
  intro x y hx hy rest more heq
  obtain ⟨hparts, hrest⟩ := h _ _ hx hy _ _ heq
  exact ⟨hpart hparts, hrest⟩

/-- As many keys or signatures as a word can count, each as long as a word can count. -/
def WordSizedItems {α : Type} (bytes : α → Bytes) (items : List α) : Prop :=
  items.length < 2 ^ 64 ∧ ∀ x ∈ items, (bytes x).length < 2 ^ 64

theorem Block.prefixFree_encodeKeys : PrefixFree (WordSizedItems MinerKey.bytes) encodeKeys :=
  Prefixed.prefixFree_encodeMany
    (Prefixed.prefixFree_encode.comap fun _ _ h => congrArg MinerKey.mk h)

theorem Block.prefixFree_encodeSignatures :
    PrefixFree (WordSizedItems Signature.bytes) encodeSignatures :=
  Prefixed.prefixFree_encodeMany
    (Prefixed.prefixFree_encode.comap fun _ _ h => congrArg Signature.mk h)

namespace Block

/-- A block all of whose lists, keys and signatures have lengths that a word can count, as
everything held in memory has. -/
structure Addressable (block : Block) : Prop extends block.WordSized where
  preVerifiers : WordSizedItems MinerKey.bytes block.preVerifiers
  preSignatures : WordSizedItems Signature.bytes block.preSignatures
  verifiers : WordSizedItems MinerKey.bytes block.verifiers
  signatures : WordSizedItems Signature.bytes block.signatures

theorem ListWithinLimits.wordSized {α : Type} {bytes : α → Bytes} {items : List α}
    (h : ListWithinLimits bytes items) : WordSizedItems bytes items :=
  ⟨Nat.lt_of_le_of_lt h.1 (by decide), fun x hx => Nat.lt_of_le_of_lt (h.2 x hx) (by decide)⟩

/-- What the format can carry is far smaller than that. -/
theorem WithinLimits.addressable {block : Block} (h : block.WithinLimits) : block.Addressable where
  miner := Nat.lt_of_le_of_lt h.miner (by decide)
  transactions := Nat.lt_of_le_of_lt h.transactions (by decide)
  eachTransaction := by
    intro tx htx
    obtain ⟨hsender, hrecipient⟩ := h.eachTransaction tx htx
    exact ⟨Nat.lt_of_le_of_lt hsender (by decide), Nat.lt_of_le_of_lt hrecipient (by decide)⟩
  preVerifiers := h.preVerifiers.wordSized
  preSignatures := h.preSignatures.wordSized
  verifiers := h.verifiers.wordSized
  signatures := h.signatures.wordSized

/-- Two blocks with the same fields, as far as a scope covers them. -/
structure Agree (scope : Scope) (b₁ b₂ : Block) : Prop where
  miner : b₁.miner = b₂.miner
  transactions : b₁.transactions = b₂.transactions
  nonce : b₁.nonce = b₂.nonce
  difficulty : b₁.difficulty = b₂.difficulty
  timestamp : b₁.timestamp = b₂.timestamp
  previous : b₁.previous = b₂.previous
  preVerifiers : b₁.preVerifiers = b₂.preVerifiers
  preSignatures : b₁.preSignatures = b₂.preSignatures
  miningTime : scope ≠ .sealed → b₁.miningTime.toNanos64 = b₂.miningTime.toNanos64
  verifiers : scope = .full → b₁.verifiers = b₂.verifiers
  signatures : scope = .full → b₁.signatures = b₂.signatures

variable {scope : Scope} {b₁ b₂ : Block}

/-! ### The bytes are those of the covered fields -/

theorem scopedTime_eq_iff {t₁ t₂ : Duration} :
    scopedTime scope t₁ = scopedTime scope t₂ ↔ (scope ≠ .sealed → t₁.toNanos64 = t₂.toNanos64) := by
  cases scope <;> simp [scopedTime]

theorem encodeFinalSets_eq_iff (h₁ : b₁.Addressable) (h₂ : b₂.Addressable) :
    encodeFinalSets scope b₁ = encodeFinalSets scope b₂ ↔
      (scope = .full → b₁.verifiers = b₂.verifiers ∧ b₁.signatures = b₂.signatures) := by
  cases scope with
  | full =>
      simp only [encodeFinalSets, forall_const]
      refine ⟨fun h => ?_, fun ⟨hverifiers, hsignatures⟩ => by rw [hverifiers, hsignatures]⟩
      obtain ⟨hverifiers, h⟩ := prefixFree_encodeKeys _ _ h₁.verifiers h₂.verifiers _ _ h
      rw [← List.append_nil (encodeSignatures b₁.signatures),
        ← List.append_nil (encodeSignatures b₂.signatures)] at h
      exact ⟨hverifiers, (prefixFree_encodeSignatures _ _ h₁.signatures h₂.signatures _ _ h).1⟩
  | attested => simp [encodeFinalSets]
  | «sealed» => simp [encodeFinalSets]

theorem Agree.encodeIn_eq (h : Agree scope b₁ b₂) : encodeIn scope b₁ = encodeIn scope b₂ := by
  have htime := scopedTime_eq_iff.mpr h.miningTime
  have hfinal : encodeFinalSets scope b₁ = encodeFinalSets scope b₂ := by
    cases scope with
    | full => rw [encodeFinalSets, encodeFinalSets, h.verifiers rfl, h.signatures rfl]
    | attested => rfl
    | «sealed» => rfl
  rw [encodeIn, encodeIn, h.miner, h.transactions, h.nonce, h.difficulty, h.timestamp, h.previous,
    htime, h.preVerifiers, h.preSignatures, hfinal]

/-- **The bytes in a scope are equal exactly for blocks that agree in it.**  Field by field, each
shows where it ends. -/
theorem encodeIn_eq_iff (h₁ : b₁.Addressable) (h₂ : b₂.Addressable) :
    encodeIn scope b₁ = encodeIn scope b₂ ↔ Agree scope b₁ b₂ := by
  refine ⟨fun h => ?_, Agree.encodeIn_eq⟩
  rw [encodeIn, encodeIn] at h
  obtain ⟨hminer, h⟩ := Prefixed.prefixFree_encode _ _ h₁.miner h₂.miner _ _ h
  obtain ⟨htransactions, h⟩ := Prefixed.prefixFree_encodeMany Transaction.prefixFree_encode _ _
    ⟨h₁.transactions, h₁.eachTransaction⟩ ⟨h₂.transactions, h₂.eachTransaction⟩ _ _ h
  obtain ⟨hnonce, h⟩ := word64_append_inj h
  obtain ⟨hdifficulty, h⟩ := word64_append_inj h
  obtain ⟨htimestamp, h⟩ := word64_append_inj h
  obtain ⟨hprevious, h⟩ := List.append_inj h
    (b₁.previous.length_eq.trans b₂.previous.length_eq.symm)
  obtain ⟨htime, h⟩ := word64_append_inj h
  obtain ⟨hpreVerifiers, h⟩ :=
    prefixFree_encodeKeys _ _ h₁.preVerifiers h₂.preVerifiers _ _ h
  obtain ⟨hpreSignatures, h⟩ :=
    prefixFree_encodeSignatures _ _ h₁.preSignatures h₂.preSignatures _ _ h
  have hfinal := (encodeFinalSets_eq_iff h₁ h₂).mp h
  exact
    { miner := MinerKey.mk.injEq _ _ ▸ hminer
      transactions := htransactions
      nonce := hnonce
      difficulty := hdifficulty
      timestamp := htimestamp
      previous := Digest.mk.injEq _ _ _ _ ▸ hprevious
      preVerifiers := hpreVerifiers
      preSignatures := hpreSignatures
      miningTime := scopedTime_eq_iff.mp htime
      verifiers := fun hscope => (hfinal hscope).1
      signatures := fun hscope => (hfinal hscope).2 }

/-- What is filled in after the search is outside the sealed scope. -/
theorem agree_sealed_filled (block : Block) (miningTime : Duration) (verifiers : List MinerKey)
    (signatures : List Signature) :
    Agree .sealed { block with miningTime, verifiers, signatures } block where
  miner := rfl
  transactions := rfl
  nonce := rfl
  difficulty := rfl
  timestamp := rfl
  previous := rfl
  preVerifiers := rfl
  preSignatures := rfl
  miningTime := fun h => absurd rfl h
  verifiers := nofun
  signatures := nofun

/-! ### What the digests identify -/

/-- **Each encoding covers the fields of its scope, no more and no less.**  So, where digests
tell the bytes apart, a block's name identifies the block, the digest that verifiers sign
identifies the candidate, and the work depends on nothing that is filled in after the search. -/
theorem scopes_exact (h₁ : b₁.Addressable) (h₂ : b₂.Addressable) :
    (b₁.encode = b₂.encode ↔ Agree .full b₁ b₂) ∧
      (b₁.payload = b₂.payload ↔ Agree .attested b₁ b₂) ∧
      (b₁.sealedBytes = b₂.sealedBytes ↔ Agree .sealed b₁ b₂) ∧
      (Sha256.TellsApart b₁.encode b₂.encode → (b₁.digest = b₂.digest ↔ Agree .full b₁ b₂)) ∧
      (Sha256.TellsApart b₁.payload b₂.payload →
        (Sha256.digest b₁.payload = Sha256.digest b₂.payload ↔ Agree .attested b₁ b₂)) ∧
      (Sha256.TellsApart b₁.sealedBytes b₂.sealedBytes →
        (b₁.workDigest = b₂.workDigest ↔ Agree .sealed b₁ b₂)) ∧
      ∀ miningTime verifiers signatures,
        ({ b₁ with miningTime, verifiers, signatures } : Block).workDigest = b₁.workDigest :=
  ⟨encodeIn_eq_iff h₁ h₂, encodeIn_eq_iff h₁ h₂, encodeIn_eq_iff h₁ h₂,
    fun happart => happart.digest_eq_iff.trans (encodeIn_eq_iff h₁ h₂),
    fun happart => happart.digest_eq_iff.trans (encodeIn_eq_iff h₁ h₂),
    fun happart => happart.digest_eq_iff.trans (encodeIn_eq_iff h₁ h₂),
    fun miningTime verifiers signatures => congrArg Sha256.digest
      (agree_sealed_filled b₁ miningTime verifiers signatures).encodeIn_eq⟩

/-- Genesis with a verifier has another name, but the same payload and the same work. -/
theorem scopes_exact_genesis_attested :
    ({ genesis with verifiers := [.zero] } : Block).digest ≠ genesis.digest ∧
      Sha256.digest ({ genesis with verifiers := [.zero] } : Block).payload =
        Sha256.digest genesis.payload ∧
      ({ genesis with verifiers := [.zero] } : Block).workDigest = genesis.workDigest := by
  have hlimits : ({ genesis with verifiers := [.zero] } : Block).WithinLimits := by decide
  obtain ⟨-, hpayload, -, hname, hsigned, hwork, -⟩ :=
    scopes_exact hlimits.addressable withinLimits_genesis.addressable
  have happart : Sha256.TellsApart ({ genesis with verifiers := [.zero] } : Block).encode
      genesis.encode := by
    intro h
    exact absurd h (by decide +kernel)
  have hcandidate : Agree .attested { genesis with verifiers := [.zero] } genesis :=
    hpayload.mp rfl
  refine ⟨fun h => ?_, (hsigned fun _ => rfl).mpr hcandidate, (hwork fun _ => rfl).mpr ?_⟩
  · exact absurd (((hname happart).mp h).verifiers rfl) (by decide)
  · exact agree_sealed_filled genesis _ _ _

end Block

end AttestedLedger
