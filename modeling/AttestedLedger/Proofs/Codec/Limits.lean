/-
What readers with a limit make of what was written.

A reader is given the longest length it may meet.  What was written with a longer one is
refused as soon as the length is read, so which of several faults is reported depends on
their order alone.  `Decoder.Screens` says of the bytes of a value what becomes of them,
whatever follows: a fault if there is one, and otherwise the value.  It is carried along
`bind`, where the first fault wins, and so from lengths to rows, where the fault is that of
the first item that has one.

`limits_exact` is what comes of it for lists of byte strings, together with the numbers that
all lengths are written as.  No form of a number is read that is shorter than the written one.
-/
import AttestedLedger.Proofs.Codec.Spelling

namespace AttestedLedger

/-! ### Faults in their order -/

namespace Decoder

variable {α β : Type} {fault later : Option CodecError}

/-- What becomes of the bytes of a value, whatever follows them: the fault, if there is one, is
reported, and otherwise exactly these bytes are taken for the value. -/
def Screens (decoder : Decoder α) (bytes : Bytes) (value : α) (fault : Option CodecError) : Prop :=
  ∀ rest, decoder (bytes ++ rest) =
    match fault with
    | some e => .error e
    | none => .ok (value, rest)

theorem Reads.screens {decoder : Decoder α} {bytes : Bytes} {x : α} (h : decoder.Reads bytes x) :
    decoder.Screens bytes x none :=
  h.whole

/-- **Of two faults the first is reported.** -/
theorem Screens.bind {decoder : Decoder α} {next : α → Decoder β} {first second : Bytes} {x : α}
    {y : β} (hfirst : decoder.Screens first x fault) (hsecond : (next x).Screens second y later) :
    (decoder >>= next).Screens (first ++ second) y (fault.or later) := by
  intro rest
  have hread := hfirst (second ++ rest)
  rw [List.append_assoc]
  cases fault with
  | some e => exact bind_of_error hread
  | none =>
      rw [bind_of_ok hread, Option.none_or]
      exact hsecond rest

theorem Screens.map {decoder : Decoder α} {bytes : Bytes} {x : α}
    (h : decoder.Screens bytes x fault) (change : α → β) :
    (decoder >>= fun value => pure (change value)).Screens bytes (change x) fault := by
  have hboth : (decoder >>= fun value => pure (change value)).Screens (bytes ++ []) (change x)
      (fault.or none) := h.bind (reads_pure (change x)).screens
  rwa [List.append_nil, Option.or_none] at hboth

/-- **Of the faults in a row the first is reported.** -/
theorem screens_times {item : Decoder α} {encode : α → Bytes} {fault : α → Option CodecError}
    {items : List α} (hitem : ∀ x ∈ items, item.Screens (encode x) x (fault x)) :
    (times item items.length).Screens (items.flatMap encode) items (items.findSome? fault) := by
  induction items with
  | nil => exact (reads_pure []).screens
  | cons x rest ih =>
      have hrest := (ih fun y hy => hitem y (List.mem_cons_of_mem x hy)).map (x :: ·)
      have hfirst : (x :: rest).findSome? fault = (fault x).or (rest.findSome? fault) := by
        rw [List.findSome?_cons]
        cases fault x <;> rfl
      rw [hfirst, List.flatMap_cons]
      exact (hitem x List.mem_cons_self).bind hrest

end Decoder

/-! ### Lengths -/

namespace Varint

/-- No bytes are taken for a number that are fewer than it is written with. -/
theorem length_encode_add_le {input rest : Bytes} {n : Nat} (h : decode input = .ok (n, rest)) :
    (encode n).length + rest.length ≤ input.length := by
  obtain ⟨front, hform, rfl⟩ := consumes_decode input n rest h
  rw [List.length_append]
  exact Nat.add_le_add_right hform.writtenOrLonger.length_le _

end Varint

namespace Prefixed

/-- The fault of a length above a limit. -/
def overflow? (limit n : Nat) : Option CodecError :=
  if limit < n then some (.lengthOverflow n) else none

theorem screens_length (limit : Nat) {n : Nat} (h : n < 2 ^ 64) :
    (length limit).Screens (Varint.encode n) n (overflow? limit n) := by
  intro rest
  rw [length, Decoder.bind_of_ok (Varint.decode_encode n rest h), overflow?]
  split <;> rfl

theorem screens_decode (limit : Nat) {bytes : Bytes} (h : bytes.length < 2 ^ 64) :
    (decode limit).Screens (encode bytes) bytes (overflow? limit bytes.length) := by
  have hboth := (screens_length limit h).bind (Decoder.reads_exactly rfl).screens
  rwa [Option.or_none] at hboth

variable {items : List Bytes} {maxItems maxLength : Nat}

/-- The number of items is looked at first, and then the length of each. -/
theorem screens_decodeList (hcount : items.length < 2 ^ 64)
    (heach : ∀ item ∈ items, item.length < 2 ^ 64) :
    (decodeList maxItems maxLength).Screens (encodeList items) items
      ((overflow? maxItems items.length).or
        (items.findSome? fun item => overflow? maxLength item.length)) :=
  (screens_length maxItems hcount).bind (Decoder.screens_times fun item hitem =>
    screens_decode maxLength (heach item hitem))

theorem findSome?_overflow (limit : Nat) (items : List Bytes) :
    (items.findSome? fun item => overflow? limit item.length) =
      (items.find? fun item => limit < item.length).map fun item =>
        .lengthOverflow item.length := by
  induction items with
  | nil => rfl
  | cons item rest ih =>
      rw [List.findSome?_cons, List.find?_cons, ih, overflow?]
      by_cases hlong : limit < item.length
      · simp [hlong]
      · simp [hlong]

/-- What was written is refused for its number of items, or else for its first long item, or else
read back. -/
theorem decodeList_encodeList (hcount : items.length < 2 ^ 64)
    (heach : ∀ item ∈ items, item.length < 2 ^ 64) (rest : Bytes) :
    decodeList maxItems maxLength (encodeList items ++ rest) =
      if maxItems < items.length then .error (.lengthOverflow items.length)
      else match items.find? fun item => maxLength < item.length with
        | some item => .error (.lengthOverflow item.length)
        | none => .ok (items, rest) := by
  rw [screens_decodeList hcount heach rest, findSome?_overflow, overflow?]
  by_cases hmany : maxItems < items.length
  · rw [if_pos hmany, if_pos hmany, Option.some_or]
  · rw [if_neg hmany, if_neg hmany, Option.none_or]
    cases items.find? fun item => decide (maxLength < item.length) <;> rfl

theorem decodeList_encodeList_eq_ok_iff (hcount : items.length < 2 ^ 64)
    (heach : ∀ item ∈ items, item.length < 2 ^ 64) (rest : Bytes) :
    decodeList maxItems maxLength (encodeList items ++ rest) = .ok (items, rest) ↔
      items.length ≤ maxItems ∧ ∀ item ∈ items, item.length ≤ maxLength := by
  rw [decodeList_encodeList hcount heach]
  by_cases hmany : maxItems < items.length
  · rw [if_pos hmany]
    exact iff_of_false nofun fun h => Nat.not_lt.mpr h.1 hmany
  rw [if_neg hmany, and_iff_right (Nat.not_lt.mp hmany)]
  cases hfind : items.find? fun item => decide (maxLength < item.length) with
  | some item =>
      have hlong : maxLength < item.length := by simpa using List.find?_some hfind
      exact iff_of_false nofun fun h =>
        Nat.not_lt.mpr (h item (List.mem_of_find?_eq_some hfind)) hlong
  | none =>
      refine iff_of_true rfl fun item hitem => ?_
      exact Nat.not_lt.mp fun hlong =>
        List.find?_eq_none.mp hfind item hitem (decide_eq_true hlong)

/-- **Lists of byte strings are read back exactly within the limits**, and beyond them they are
refused for their number of items, or else for the first item that is too long.  Lengths are
64-bit numbers, and every such number is read back from the fewest bytes that it can be read
from. -/
theorem limits_exact :
    (∀ (items : List Bytes) (maxItems maxLength : Nat) (rest : Bytes),
      items.length < 2 ^ 64 → (∀ item ∈ items, item.length < 2 ^ 64) →
        (decodeList maxItems maxLength (encodeList items ++ rest) = .ok (items, rest) ↔
          items.length ≤ maxItems ∧ ∀ item ∈ items, item.length ≤ maxLength) ∧
        decodeList maxItems maxLength (encodeList items ++ rest) =
          if maxItems < items.length then .error (.lengthOverflow items.length)
          else match items.find? fun item => maxLength < item.length with
            | some item => .error (.lengthOverflow item.length)
            | none => .ok (items, rest)) ∧
      ∀ n : UInt64,
        (∀ rest, Varint.decode (Varint.encode n.toNat ++ rest) = .ok (n.toNat, rest)) ∧
        ∀ input rest, Varint.decode input = .ok (n.toNat, rest) →
          (Varint.encode n.toNat).length + rest.length ≤ input.length := by
  refine ⟨fun items maxItems maxLength rest hcount heach => ?_, fun n => ?_⟩
  · exact ⟨decodeList_encodeList_eq_ok_iff hcount heach rest,
      decodeList_encodeList hcount heach rest⟩
  · exact ⟨fun rest => Varint.decode_encode n.toNat rest n.toNat_lt,
      fun _ _ => Varint.length_encode_add_le⟩

/-- Three items, two of which have lengths that a single byte cannot tell. -/
def growingItems : List Bytes := [[], List.replicate 253 7, List.replicate 254 7]

/-- Read back, refused for the first of two long items, and refused for their number. -/
theorem limits_exact_growing :
    (growingItems.length < 2 ^ 64 ∧ ∀ item ∈ growingItems, item.length < 2 ^ 64) ∧
      decodeList 3 254 (encodeList growingItems ++ [9]) = .ok (growingItems, [9]) ∧
      decodeList 3 252 (encodeList growingItems ++ [9]) = .error (.lengthOverflow 253) ∧
      decodeList 2 252 (encodeList growingItems ++ [9]) = .error (.lengthOverflow 3) := by
  have hcount : growingItems.length < 2 ^ 64 := by decide
  have heach : ∀ item ∈ growingItems, item.length < 2 ^ 64 := by decide +kernel
  refine ⟨⟨hcount, heach⟩, ?_, ?_, ?_⟩
  · rw [(limits_exact.1 growingItems 3 254 [9] hcount heach).1]
    decide +kernel
  · rw [(limits_exact.1 growingItems 3 252 [9] hcount heach).2]
    simp [growingItems, -List.reduceReplicate]
  · rw [(limits_exact.1 growingItems 2 252 [9] hcount heach).2]
    rfl

end Prefixed

end AttestedLedger
