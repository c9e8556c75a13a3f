/-
How long texts get.

What is shown to a peer is made of fixed words, numbers, digests, keys and now and then some
of the bytes that the peer sent.  Lengths are counted in characters, which add up along a
text; no character takes more than four bytes, so a bound on the characters is a bound on
what is sent.
-/
import AttestedLedger.Bytes.Hex
import AttestedLedger.Digest
import Mathlib.Data.String.Basic
import Mathlib.Data.Nat.Digits.Defs

namespace AttestedLedger

/-- A number that a word holds has at most twenty digits. -/
theorem length_toString_nat {n : Nat} (h : n < 2 ^ 64) : (toString n).length ≤ 20 :=
  Nat.repr_length n 20 (by decide) (Nat.lt_trans h (by decide))

theorem length_toString_uint64 (n : UInt64) : (toString n).length ≤ 20 :=
  length_toString_nat n.toNat_lt

/-! ### Hexadecimal text -/

theorem Hex.length_encodeChars (bytes : Bytes) : (encodeChars bytes).length = 2 * bytes.length := by
  induction bytes with
  | nil => rfl
  | cons b rest ih =>
      rw [encodeChars, List.flatMap_cons, List.length_append, List.length_cons]
      rw [encodeChars] at ih
      simp only [ih, List.length_cons, List.length_nil]
      omega

theorem Hex.length_encode (bytes : Bytes) : (encode bytes).length = 2 * bytes.length := by
  rw [encode, String.length_ofList, length_encodeChars]

namespace Utf8

/-! ### Written text -/

theorem length_encode (text : String) : (encode text).length = text.utf8ByteSize := by
  simp [encode]

theorem utf8Len_le : ∀ chars : List Char, String.utf8Len chars ≤ 4 * chars.length := by
  intro chars
  induction chars with
  | nil => simp
  | cons c rest ih =>
      have hc := c.utf8Size_le_four
      rw [String.utf8Len_cons, List.length_cons]
      omega

theorem le_utf8Len : ∀ chars : List Char, chars.length ≤ String.utf8Len chars := by
  intro chars
  induction chars with
  | nil => simp
  | cons c rest ih =>
      have hc := c.utf8Size_pos
      rw [String.utf8Len_cons, List.length_cons]
      omega

/-- No character takes more than four bytes. -/
theorem length_encode_le (text : String) : (encode text).length ≤ 4 * text.length := by
  rw [length_encode, ← String.utf8Len_toList, ← String.length_toList]
  exact utf8Len_le text.toList

/-- None takes less than one. -/
theorem length_le_encode (text : String) : text.length ≤ (encode text).length := by
  rw [length_encode, ← String.utf8Len_toList, ← String.length_toList]
  exact le_utf8Len text.toList

/-! ### Text that was read -/

theorem encode_of_decode? {bytes : Bytes} {text : String} (h : decode? bytes = some text) :
    encode text = bytes := by
  unfold decode? String.fromUTF8? at h
  split at h
  · rw [← Option.some.inj h]
    exact List.toList_toArray
  · exact absurd h (by simp)

theorem length_lossyChars_le :
    ∀ (fuel : Nat) (bytes : Bytes), (lossyChars fuel bytes).length ≤ fuel := by
  intro fuel
  induction fuel with
  | zero => intro bytes; exact Nat.le_refl 0
  | succ fuel ih =>
      intro bytes
      rw [lossyChars]
      split
      · exact Nat.zero_le _
      · exact Nat.succ_le_succ (ih _)
      · exact Nat.succ_le_succ (ih _)
      · exact Nat.succ_le_succ (Nat.zero_le _)

/-- Reading gives no more characters than there are bytes, well formed or not. -/
theorem length_decodeLossy_le (bytes : Bytes) : (decodeLossy bytes).length ≤ bytes.length := by
  unfold decodeLossy
  split
  · rename_i text htext
    exact Nat.le_trans (length_le_encode text) (Nat.le_of_eq (congrArg _ (encode_of_decode? htext)))
  · rw [String.length_ofList]
    exact length_lossyChars_le _ _

/-! ### Faults -/

/-- What one step reads, a character or an ill-formed prefix, is at most four bytes long. -/
def Step.Narrow : Step → Prop
  | .finished | .ill none => True
  | .char _ width | .ill (some width) => width ≤ 4

theorem narrow_next (bytes : Bytes) : (next bytes).Narrow := by
  fun_cases next bytes <;> simp [Step.Narrow]

theorem faultFrom_le :
    ∀ (fuel index : Nat) (bytes : Bytes) {fault : Fault}, faultFrom index fuel bytes = some fault →
      fault.index ≤ index + 4 * fuel ∧ ∀ n, fault.length = some n → n ≤ 4 := by
  intro fuel
  induction fuel with
  | zero => intro index bytes fault h; exact absurd h (by simp [faultFrom])
  | succ fuel ih =>
      intro index bytes fault h
      have hnarrow := narrow_next bytes
      rw [faultFrom] at h
      split at h
      · exact absurd h (by simp)
      · rename_i c n hnext
        rw [hnext] at hnarrow
        obtain ⟨hindex, hlength⟩ := ih _ _ h
        exact ⟨Nat.le_trans hindex (by simp only [Step.Narrow] at hnarrow; omega), hlength⟩
      · rename_i length hnext
        obtain rfl := Option.some.inj h
        refine ⟨Nat.le_add_right _ _, fun n hn => ?_⟩
        rw [hnext, show length = some n from hn] at hnarrow
        exact hnarrow

end Utf8

end AttestedLedger
