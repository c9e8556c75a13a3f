/-
Encodings that show where they end.

An encoding is prefix free on some values when the bytes of a value followed by anything
cannot be those of another value followed by anything else.  Fields that are written one
after another can then be told apart, so a record's bytes determine its fields.  Numbers
of variable width are prefix free because their reader gives back what was written and
leaves what follows; everything behind a length inherits it from the length.

Lengths are 64-bit numbers.  A value whose lists are longer than that has no meaningful
encoding, which is why each statement here is about values of word size.
-/
import AttestedLedger.Block
import Mathlib.Algebra.Group.Nat.Defs

namespace AttestedLedger

/-- The bytes of a valid value, whatever follows, are those of no other valid value. -/
def PrefixFree {α : Type} (valid : α → Prop) (encode : α → Bytes) : Prop :=
  ∀ x y, valid x → valid y → ∀ rest more, encode x ++ rest = encode y ++ more → x = y ∧ rest = more

/-! ### Numbers -/

namespace Bytes

/-- Reading a written word gives its value modulo the word's range. -/
theorem littleEndianValue_littleEndian (width n : Nat) :
    littleEndianValue (littleEndian width n) = n % 256 ^ width := by
  induction width generalizing n with
  | zero => simp [littleEndian, littleEndianValue, Nat.mod_one]
  | succ width ih =>
      have hsplit : n % 256 ^ (width + 1) = n % 256 + 256 * (n / 256 % 256 ^ width) := by
        rw [Nat.pow_succ, Nat.mul_comm (256 ^ width), Nat.mod_mul]
      rw [littleEndian, littleEndianValue, ih, UInt8.toNat_ofNat', hsplit]

/-- The value of `k` bytes is below `256 ^ k`. -/
theorem littleEndianValue_lt (bytes : Bytes) : littleEndianValue bytes < 256 ^ bytes.length := by
  induction bytes with
  | nil => simp [littleEndianValue]
  | cons b bs ih =>
      have hb := b.toNat_lt
      rw [littleEndianValue, List.length_cons, Nat.pow_succ]
      omega

end Bytes

theorem Decoder.word_littleEndian (width n : Nat) (rest : Bytes) (h : n < 256 ^ width) :
    word width (Bytes.littleEndian width n ++ rest) = .ok (n, rest) := by
  rw [word, Bytes.splitExact_append (Bytes.length_littleEndian width n)]
  dsimp only
  rw [Bytes.littleEndianValue_littleEndian, Nat.mod_eq_of_lt h]

namespace Varint

/-- **Reading a written number gives the number and leaves what follows.** -/
theorem decode_encode (n : Nat) (rest : Bytes) (h : n < 2 ^ 64) :
    decode (encode n ++ rest) = .ok (n, rest) := by
  rw [encode]
  split
  · rename_i hsmall
    have hlt : n < 256 := Nat.lt_of_le_of_lt hsmall (by decide)
    have hvalue : (UInt8.ofNat n).toNat = n := by
      rw [UInt8.toNat_ofNat', Nat.mod_eq_of_lt hlt]
    have hmarker : UInt8.ofNat n ≤ 0xfc := by
      rw [UInt8.le_iff_toNat_le, hvalue]
      exact hsmall
    rw [List.singleton_append, decode, if_pos hmarker, hvalue]
  · split
    · rename_i hbound
      exact Decoder.word_littleEndian 2 n rest (Nat.lt_of_le_of_lt hbound (by decide))
    · split
      · rename_i hbound
        exact Decoder.word_littleEndian 4 n rest (Nat.lt_of_le_of_lt hbound (by decide))
      · exact Decoder.word_littleEndian 8 n rest h

theorem prefixFree : PrefixFree (· < 2 ^ 64) encode := by
  intro x y hx hy rest more h
  have hread := decode_encode x rest hx
  rw [h, decode_encode y more hy] at hread
  obtain ⟨hvalue, hrest⟩ := Prod.mk.inj (Except.ok.inj hread)
  exact ⟨hvalue.symm, hrest.symm⟩

end Varint

/-! ### Behind a length -/

namespace Prefixed

theorem prefixFree_encode : PrefixFree (fun bytes : Bytes => bytes.length < 2 ^ 64) encode := by
  intro x y hx hy rest more h
  rw [encode, encode, List.append_assoc, List.append_assoc] at h
  obtain ⟨hlength, hbytes⟩ := Varint.prefixFree _ _ hx hy _ _ h
  exact List.append_inj hbytes hlength

/-- As many items on both sides are the same items. -/
theorem flatMap_append_inj {α : Type} {valid : α → Prop} {item : α → Bytes}
    (hitem : PrefixFree valid item) :
    ∀ (xs ys : List α), xs.length = ys.length → (∀ x ∈ xs, valid x) → (∀ y ∈ ys, valid y) →
      ∀ rest more, xs.flatMap item ++ rest = ys.flatMap item ++ more → xs = ys ∧ rest = more := by
  intro xs
  induction xs with
  | nil =>
      intro ys hlength _ _ rest more h
      rw [List.length_nil, eq_comm, List.length_eq_zero_iff] at hlength
      subst hlength
      exact ⟨rfl, h⟩
  | cons x others ih =>
      intro ys hlength hxs hys rest more h
      cases ys with
      | nil => exact absurd hlength (by simp)
      | cons y remaining =>
          rw [List.flatMap_cons, List.flatMap_cons, List.append_assoc, List.append_assoc] at h
          obtain ⟨rfl, htails⟩ :=
            hitem x y (hxs x List.mem_cons_self) (hys y List.mem_cons_self) _ _ h
          obtain ⟨rfl, hrest⟩ := ih remaining (Nat.succ.inj hlength)
            (fun z hz => hxs z (List.mem_cons_of_mem x hz))
            (fun z hz => hys z (List.mem_cons_of_mem x hz)) _ _ htails
          exact ⟨rfl, hrest⟩

/-- **A list behind its length is prefix free when its items are.** -/
theorem prefixFree_encodeMany {α : Type} {valid : α → Prop} {item : α → Bytes}
    (hitem : PrefixFree valid item) :
    PrefixFree (fun items : List α => items.length < 2 ^ 64 ∧ ∀ x ∈ items, valid x)
      (encodeMany item) := by
  intro xs ys hxs hys rest more h
  rw [encodeMany, encodeMany, List.append_assoc, List.append_assoc] at h
  obtain ⟨hlength, hitems⟩ := Varint.prefixFree _ _ hxs.1 hys.1 _ _ h
  exact flatMap_append_inj hitem xs ys hlength hxs.2 hys.2 _ _ hitems

end Prefixed

/-! ### Transactions and blocks -/

/-- A transaction whose keys have lengths that fit a word. -/
structure Transaction.WordSized (tx : Transaction) : Prop where
  sender : tx.sender.bytes.length < 2 ^ 64
  recipient : tx.recipient.bytes.length < 2 ^ 64

/-- A word of eight bytes in front determines itself. -/
theorem word64_append_inj {x y : UInt64} {rest more : Bytes}
    (h : Bytes.littleEndian 8 x.toNat ++ rest = Bytes.littleEndian 8 y.toNat ++ more) :
    x = y ∧ rest = more := by
  have hlength : (Bytes.littleEndian 8 x.toNat).length = (Bytes.littleEndian 8 y.toNat).length := by
    rw [Bytes.length_littleEndian, Bytes.length_littleEndian]
  obtain ⟨hword, hrest⟩ := List.append_inj h hlength
  have hfits : ∀ word : UInt64, word.toNat < 256 ^ 8 := fun word => word.toNat_lt
  have hvalue := congrArg Bytes.littleEndianValue hword
  rw [Bytes.littleEndianValue_littleEndian, Bytes.littleEndianValue_littleEndian,
    Nat.mod_eq_of_lt (hfits x), Nat.mod_eq_of_lt (hfits y)] at hvalue
  exact ⟨UInt64.toNat_inj.mp hvalue, hrest⟩

theorem Transaction.prefixFree_encode : PrefixFree WordSized encode := by
  intro x y hx hy rest more h
  rw [encode, encode] at h
  simp only [List.append_assoc] at h
  obtain ⟨hsender, h⟩ := Prefixed.prefixFree_encode _ _ hx.sender hy.sender _ _ h
  obtain ⟨hrecipient, h⟩ := Prefixed.prefixFree_encode _ _ hx.recipient hy.recipient _ _ h
  obtain ⟨hamount, h⟩ := word64_append_inj h
  obtain ⟨htimestamp, hrest⟩ := word64_append_inj h
  obtain ⟨⟨_⟩, ⟨_⟩, _, _⟩ := x
  obtain ⟨⟨_⟩, ⟨_⟩, _, _⟩ := y
  subst hsender hrecipient hamount htimestamp
  exact ⟨rfl, hrest⟩

/-- A block whose leading lists have lengths that fit a word. -/
structure Block.WordSized (block : Block) : Prop where
  miner : block.miner.bytes.length < 2 ^ 64
  transactions : block.transactions.length < 2 ^ 64
  eachTransaction : ∀ tx ∈ block.transactions, tx.WordSized

/-- Blocks with the same bytes hold the same transactions. -/
theorem Block.transactions_eq_of_encode_eq {block other : Block} (hblock : block.WordSized)
    (hother : other.WordSized) (h : block.encode = other.encode) :
    block.transactions = other.transactions := by
  rw [encode, encode, encodeIn, encodeIn] at h
  obtain ⟨-, h⟩ := Prefixed.prefixFree_encode _ _ hblock.miner hother.miner _ _ h
  exact (Prefixed.prefixFree_encodeMany Transaction.prefixFree_encode _ _
    ⟨hblock.transactions, hblock.eachTransaction⟩ ⟨hother.transactions, hother.eachTransaction⟩
    _ _ h).1

end AttestedLedger
