/-
Byte strings and the words inside them.

Everything the ledger hashes, signs, stores or sends is a list of bytes.  A word of
`w` bytes is written by `littleEndian w` and read back by `littleEndianValue`; the
two are inverse below `256 ^ w`, and a written word always has exactly `w` bytes.
`splitExact` is the only way the decoders consume input: it returns the bytes asked
for together with what follows them, or nothing at all.
-/

namespace AttestedLedger

/-- A string of bytes. -/
abbrev Bytes := List UInt8

namespace Bytes

/-! ### Words -/

/-- The `width` low bytes of `n`, least significant first. -/
def littleEndian : Nat → Nat → Bytes
  | 0, _ => []
  | width + 1, n => UInt8.ofNat n :: littleEndian width (n / 256)

/-- The number whose bytes are given least significant first. -/
def littleEndianValue : Bytes → Nat
  | [] => 0
  | b :: bs => b.toNat + 256 * littleEndianValue bs

/-- The `width` low bytes of `n`, most significant first. -/
def bigEndian (width n : Nat) : Bytes := (littleEndian width n).reverse

/-- The number whose bytes are given most significant first. -/
def bigEndianValue (bytes : Bytes) : Nat :=
  bytes.foldl (fun value b => 256 * value + b.toNat) 0

@[simp] theorem length_littleEndian (width n : Nat) : (littleEndian width n).length = width := by
  induction width generalizing n with
  | zero => rfl
  | succ width ih => simp [littleEndian, ih]

@[simp] theorem length_bigEndian (width n : Nat) : (bigEndian width n).length = width := by
  simp [bigEndian]

/-- Writing the value of a word gives its bytes again. -/
theorem littleEndian_littleEndianValue (bytes : Bytes) :
    littleEndian bytes.length (littleEndianValue bytes) = bytes := by
  induction bytes with
  | nil => rfl
  | cons b bs ih =>
    have hb := b.toNat_lt
    have hdiv : (b.toNat + 256 * littleEndianValue bs) / 256 = littleEndianValue bs := by omega
    rw [List.length_cons, littleEndianValue, littleEndian, hdiv, ih]
    congr 1
    apply UInt8.toNat_inj.mp
    rw [UInt8.toNat_ofNat']
    omega

/-! ### Cutting -/

/-- The first `count` bytes and the rest, or nothing when there are fewer. -/
def splitExact (count : Nat) (bytes : Bytes) : Option (Bytes × Bytes) :=
  let (front, rest) := bytes.splitAt count
  if front.length = count then some (front, rest) else none

/-- A cut succeeds exactly when the input is the front followed by the rest. -/
theorem splitExact_eq_some_iff {count : Nat} {bytes front rest : Bytes} :
    splitExact count bytes = some (front, rest) ↔
      front.length = count ∧ bytes = front ++ rest := by
  simp only [splitExact, List.splitAt_eq]
  constructor
  · intro h
    split at h
    · next hlen =>
      simp only [Option.some.injEq, Prod.mk.injEq] at h
      obtain ⟨rfl, rfl⟩ := h
      exact ⟨hlen, (List.take_append_drop count bytes).symm⟩
    · simp at h
  · rintro ⟨hlen, rfl⟩
    subst hlen
    simp

theorem splitExact_append {count : Nat} {front : Bytes} (h : front.length = count) (rest : Bytes) :
    splitExact count (front ++ rest) = some (front, rest) :=
  splitExact_eq_some_iff.mpr ⟨h, rfl⟩

/-- A cut leaves all but what it was asked for. -/
theorem length_of_splitExact {count : Nat} {bytes front rest : Bytes}
    (h : splitExact count bytes = some (front, rest)) : rest.length + count = bytes.length := by
  obtain ⟨hlen, rfl⟩ := splitExact_eq_some_iff.mp h
  rw [List.length_append, hlen, Nat.add_comm]

/-- A cut fails exactly when the input is too short. -/
theorem splitExact_eq_none_iff {count : Nat} {bytes : Bytes} :
    splitExact count bytes = none ↔ bytes.length < count := by
  simp only [splitExact, List.splitAt_eq, List.length_take]
  split <;> simp <;> omega

end Bytes

end AttestedLedger
