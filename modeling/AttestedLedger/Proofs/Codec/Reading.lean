/-
What decoders read, and what they can read at all.

`Decoder.Reads` says that a decoder takes exactly some bytes for a value: whatever follows
them is left, and any part of them that is cut off is too little.  `Decoder.Yields` says
what every value that a decoder returns has, whatever the input.  Both are put together
along `bind`, so a record's decoder is treated field by field, in the order of its fields.

`ExactCodec` is what the two give for a reader of whole strings: it takes back what was
written exactly when the value is within the format's limits, it returns nothing beyond
them, and it tells a string that is cut off from one that goes on.
-/
import AttestedLedger.Proofs.Codec.Prefix

namespace AttestedLedger

/-- A writer and a reader of whole strings that agree on the values within some limits, and on
nothing else. -/
structure ExactCodec {α : Type} (limits : α → Prop) (encode : α → Bytes)
    (decode : Bytes → Except CodecError α) : Prop where
  readsBack : ∀ x, decode (encode x) = .ok x ↔ limits x
  limited : ∀ input x, decode input = .ok x → limits x
  cutOff : ∀ x, limits x → ∀ front, front <+: encode x → front ≠ encode x →
    decode front = .error .truncated
  goesOn : ∀ x, limits x → ∀ more, more ≠ [] →
    decode (encode x ++ more) = .error (.trailingBytes more.length)

/-- A part that is cut off is shorter. -/
theorem Bytes.length_lt_of_cutOff {front bytes : Bytes} (h : front <+: bytes)
    (hne : front ≠ bytes) : front.length < bytes.length :=
  Nat.lt_of_le_of_ne h.length_le fun hlength => hne (h.eq_of_length hlength)

namespace Decoder

variable {α β : Type}

/-- The decoder takes exactly `bytes` for `value`. -/
structure Reads (decoder : Decoder α) (bytes : Bytes) (value : α) : Prop where
  whole : ∀ rest, decoder (bytes ++ rest) = .ok (value, rest)
  cutOff : ∀ front, front <+: bytes → front ≠ bytes → decoder front = .error .truncated

/-- Every value the decoder returns has the property. -/
def Yields (decoder : Decoder α) (property : α → Prop) : Prop :=
  ∀ input value rest, decoder input = .ok (value, rest) → property value

/-! ### One after another -/

theorem bind_of_ok {decoder : Decoder α} {next : α → Decoder β} {input rest : Bytes} {value : α}
    (h : decoder input = .ok (value, rest)) : (decoder >>= next) input = next value rest := by
  show (decoder input >>= fun pair => next pair.1 pair.2) = _
  rw [h]
  rfl

theorem bind_of_error {decoder : Decoder α} {next : α → Decoder β} {input : Bytes} {e : CodecError}
    (h : decoder input = .error e) : (decoder >>= next) input = .error e := by
  show (decoder input >>= fun pair => next pair.1 pair.2) = _
  rw [h]
  rfl

theorem reads_pure (value : α) : (pure value : Decoder α).Reads [] value where
  whole := fun _ => rfl
  cutOff := fun _ hfront hne => absurd (List.prefix_nil.mp hfront) hne

/-- **What is read one after another is read as one.** -/
theorem Reads.bind {decoder : Decoder α} {next : α → Decoder β} {first second : Bytes} {x : α}
    {y : β} (hfirst : decoder.Reads first x) (hsecond : (next x).Reads second y) :
    (decoder >>= next).Reads (first ++ second) y where
  whole := by
    intro rest
    rw [List.append_assoc, bind_of_ok (hfirst.whole _), hsecond.whole]
  cutOff := by
    intro front hfront hne
    -- the cut is inside the first part, or behind it
    by_cases hinside : front <+: first ∧ front ≠ first
    · rw [bind_of_error (hfirst.cutOff front hinside.1 hinside.2)]
    · have hbehind : first <+: front := by
        rcases List.prefix_or_prefix_of_prefix hfront (List.prefix_append first second) with h | h
        · have hwhole : front = first := Classical.not_not.mp fun hc => hinside ⟨h, hc⟩
          exact hwhole ▸ List.prefix_refl front
        · exact h
      obtain ⟨tail, rfl⟩ := hbehind
      rw [bind_of_ok (hfirst.whole tail)]
      refine hsecond.cutOff tail ((List.prefix_append_right_inj first).mp hfront) fun hc => ?_
      exact hne (congrArg _ hc)

/-- A value that is changed after it was read. -/
theorem Reads.map {decoder : Decoder α} {bytes : Bytes} {x : α} (h : decoder.Reads bytes x)
    (change : α → β) : (decoder >>= fun value => pure (change value)).Reads bytes (change x) := by
  have hboth : (decoder >>= fun value => pure (change value)).Reads (bytes ++ []) (change x) :=
    h.bind (reads_pure (change x))
  rwa [List.append_nil] at hboth

theorem yields_pure {property : α → Prop} {value : α} (h : property value) :
    (pure value : Decoder α).Yields property := by
  intro input x rest hok
  rw [← (Prod.mk.inj (Except.ok.inj hok)).1]
  exact h

/-- Nothing is asked of the values. -/
theorem yields_any (decoder : Decoder α) : decoder.Yields fun _ => True :=
  fun _ _ _ _ => trivial

theorem Yields.bind {decoder : Decoder α} {next : α → Decoder β} {first : α → Prop}
    {second : β → Prop} (hfirst : decoder.Yields first)
    (hsecond : ∀ x, first x → (next x).Yields second) : (decoder >>= next).Yields second := by
  intro input y rest hok
  cases hread : decoder input with
  | error e =>
      rw [bind_of_error hread] at hok
      exact absurd hok (by simp)
  | ok pair =>
      obtain ⟨x, middle⟩ := pair
      rw [bind_of_ok hread] at hok
      exact hsecond x (hfirst input x middle hread) middle y rest hok

/-! ### Words -/

theorem reads_exactly {count : Nat} {bytes : Bytes} (h : bytes.length = count) :
    (exactly count).Reads bytes bytes where
  whole := by
    intro rest
    rw [exactly, Bytes.splitExact_append h]
  cutOff := by
    intro front hfront hne
    have hshort := Bytes.length_lt_of_cutOff hfront hne
    rw [exactly, Bytes.splitExact_eq_none_iff.mpr (h ▸ hshort)]

theorem reads_word {width n : Nat} (h : n < 256 ^ width) :
    (word width).Reads (Bytes.littleEndian width n) n where
  whole := fun rest => word_littleEndian width n rest h
  cutOff := by
    intro front hfront hne
    have hshort := Bytes.length_lt_of_cutOff hfront hne
    rw [Bytes.length_littleEndian] at hshort
    rw [word, Bytes.splitExact_eq_none_iff.mpr hshort]

theorem reads_word64 (x : UInt64) : word64.Reads (Bytes.littleEndian 8 x.toNat) x := by
  have hfits : x.toNat < 256 ^ 8 := x.toNat_lt
  have h := (reads_word hfits).map UInt64.ofNat
  rwa [UInt64.ofNat_toNat] at h

theorem yields_exactly (count : Nat) : (exactly count).Yields fun bytes => bytes.length = count := by
  intro input bytes rest hok
  rw [exactly] at hok
  split at hok
  · rename_i split hsplit
    obtain rfl := Except.ok.inj hok
    exact (Bytes.splitExact_eq_some_iff.mp hsplit).1
  · exact absurd hok (by simp)

/-! ### Rows -/

theorem yields_times {item : Decoder α} {property : α → Prop} (h : item.Yields property)
    (count : Nat) :
    (times item count).Yields fun items => items.length = count ∧ ∀ x ∈ items, property x := by
  induction count with
  | zero => exact yields_pure ⟨rfl, fun _ hx => absurd hx List.not_mem_nil⟩
  | succ count ih =>
      refine Yields.bind h fun x hx => Yields.bind ih fun others hothers => yields_pure ⟨?_, ?_⟩
      · rw [List.length_cons, hothers.1]
      · exact List.forall_mem_cons.mpr ⟨hx, hothers.2⟩

/-! ### Whole strings -/

/-- **A decoder that reads the values within the limits and yields no others is exact.** -/
theorem exactCodec {decoder : Decoder α} {limits : α → Prop} {encode : α → Bytes}
    (hreads : ∀ x, limits x → decoder.Reads (encode x) x) (hyields : decoder.Yields limits) :
    ExactCodec limits encode decoder.complete := by
  have hlimited : ∀ input x, decoder.complete input = .ok x → limits x := by
    intro input x hok
    rw [complete] at hok
    split at hok
    · exact absurd hok (by simp)
    · rename_i value hread
      obtain rfl := Except.ok.inj hok
      exact hyields input value [] hread
    · exact absurd hok (by simp)
  refine ⟨fun x => ⟨hlimited _ x, fun h => ?_⟩, hlimited, ?_, ?_⟩
  · have hread := (hreads x h).whole []
    rw [List.append_nil] at hread
    rw [complete, hread]
  · intro x h front hfront hne
    rw [complete, (hreads x h).cutOff front hfront hne]
  · intro x h more hmore
    rw [complete, (hreads x h).whole more]
    cases more with
    | nil => exact absurd rfl hmore
    | cons b rest => rfl

end Decoder

/-! ### Behind a length -/

namespace Varint

/-- A number in one of its wide forms. -/
theorem reads_marked {marker : UInt8} {width n : Nat} (hn : n < 256 ^ width)
    (hmarker : ∀ rest, decode (marker :: rest) = Decoder.word width rest) :
    Decoder.Reads decode (marker :: Bytes.littleEndian width n) n where
  whole := by
    intro rest
    rw [List.cons_append, hmarker]
    exact (Decoder.reads_word hn).whole rest
  cutOff := by
    intro front hfront hne
    cases front with
    | nil => rfl
    | cons b front =>
        obtain ⟨rfl, htail⟩ := List.cons_prefix_cons.mp hfront
        rw [hmarker]
        exact (Decoder.reads_word hn).cutOff front htail fun hc => hne (congrArg _ hc)

/-- A number of at most two bytes takes up to three. -/
theorem length_encode_le {n : Nat} (h : n ≤ 0xffff) : (encode n).length ≤ 3 := by
  unfold encode
  split
  · exact Nat.le_succ_of_le (Nat.le_succ_of_le (Nat.le_refl 1))
  · exact Nat.le_of_eq (by rw [List.length_cons, Bytes.length_littleEndian])

end Varint

namespace Prefixed

variable {α : Type}

theorem length_encode_le {bytes : Bytes} (h : bytes.length ≤ 0xffff) :
    (encode bytes).length ≤ 3 + bytes.length := by
  rw [encode, List.length_append]
  exact Nat.add_le_add_right (Varint.length_encode_le h) _

theorem yields_length (limit : Nat) : (length limit).Yields fun n => n ≤ limit := by
  refine Decoder.Yields.bind (Decoder.yields_any _) fun n _ => ?_
  split
  · intro input value rest hok
    exact absurd hok (by simp [throw, throwThe, MonadExceptOf.throw, StateT.lift, bind, Except.bind])
  · exact Decoder.yields_pure (by omega)

theorem yields_decode (limit : Nat) : (decode limit).Yields fun bytes => bytes.length ≤ limit := by
  refine Decoder.Yields.bind (yields_length limit) fun n hn => ?_
  intro input bytes rest hok
  rw [Decoder.yields_exactly n input bytes rest hok]
  exact hn

theorem yields_decodeMany {item : Decoder α} {property : α → Prop} (h : item.Yields property)
    (limit : Nat) :
    (decodeMany limit item).Yields fun items => items.length ≤ limit ∧ ∀ x ∈ items, property x := by
  refine Decoder.Yields.bind (yields_length limit) fun n hn => ?_
  intro input items rest hok
  obtain ⟨hlength, hall⟩ := Decoder.yields_times h n input items rest hok
  exact ⟨hlength ▸ hn, hall⟩

end Prefixed

end AttestedLedger
