/-
The spellings of a value.

A number of variable width has up to four forms, and the reader takes any that is wide
enough.  Every key, signature and list stands behind such a number, so a value that is
made of them has as many spellings as its lengths have forms.  The relations here say
which bytes these are, from numbers up to blocks, without a word about decoders.

Two things are then said of them.  What is written is a spelling, and the shortest one:
`WrittenOrLonger` is carried along `++` as the fields follow one another.  And spellings
are what decoders deal in: `Decoder.Reads` of the parts says that a spelling is taken, and
`Decoder.Consumes` that nothing else is.
-/
import AttestedLedger.Proofs.Codec.Reading

namespace AttestedLedger

/-! ### The relations -/

/-- The forms of a number: a byte, or a marker and a word. -/
inductive Varint.Spelling (n : Nat) : Bytes → Prop
  | byte (h : n ≤ 0xfc) : Spelling n [UInt8.ofNat n]
  | two (h : n < 256 ^ 2) : Spelling n (0xfd :: Bytes.littleEndian 2 n)
  | four (h : n < 256 ^ 4) : Spelling n (0xfe :: Bytes.littleEndian 4 n)
  | eight (h : n < 256 ^ 8) : Spelling n (0xff :: Bytes.littleEndian 8 n)

namespace Prefixed

/-- A byte string behind its length, in any form of the length. -/
inductive Spelling (bytes : Bytes) : Bytes → Prop
  | intro {front : Bytes} (hlength : Varint.Spelling bytes.length front) :
      Spelling bytes (front ++ bytes)

/-- Values spelled one after another. -/
inductive Row {α : Type} (spelled : α → Bytes → Prop) : List α → Bytes → Prop
  | nil : Row spelled [] []
  | cons {x : α} {rest : List α} {front back : Bytes} (hhead : spelled x front)
      (htail : Row spelled rest back) : Row spelled (x :: rest) (front ++ back)

/-- A list behind its length, in any form of the length and with any spelling of its items. -/
inductive ListSpelling {α : Type} (spelled : α → Bytes → Prop) (items : List α) : Bytes → Prop
  | intro {front row : Bytes} (hlength : Varint.Spelling items.length front)
      (hrow : Row spelled items row) : ListSpelling spelled items (front ++ row)

end Prefixed

/-- The fields of a transaction in their order, each length in any of its forms. -/
inductive Transaction.Spelling (tx : Transaction) : Bytes → Prop
  | intro {sender recipient : Bytes} (hsender : Prefixed.Spelling tx.sender.bytes sender)
      (hrecipient : Prefixed.Spelling tx.recipient.bytes recipient) :
      Spelling tx (sender ++ (recipient ++
        (Bytes.littleEndian 8 tx.amount.toNat ++ Bytes.littleEndian 8 tx.timestamp.toNat)))

namespace Block

/-- A list of keys. -/
def KeysSpelling : List MinerKey → Bytes → Prop :=
  Prefixed.ListSpelling fun key => Prefixed.Spelling key.bytes

/-- A list of signatures. -/
def SignaturesSpelling : List Signature → Bytes → Prop :=
  Prefixed.ListSpelling fun signature => Prefixed.Spelling signature.bytes

/-- The fields of a block in their order, each length in any of its forms. -/
inductive Spelling (block : Block) : Bytes → Prop
  | intro {miner transactions preVerifiers preSignatures verifiers signatures : Bytes}
      (hminer : Prefixed.Spelling block.miner.bytes miner)
      (htransactions :
        Prefixed.ListSpelling Transaction.Spelling block.transactions transactions)
      (hpreVerifiers : KeysSpelling block.preVerifiers preVerifiers)
      (hpreSignatures : SignaturesSpelling block.preSignatures preSignatures)
      (hverifiers : KeysSpelling block.verifiers verifiers)
      (hsignatures : SignaturesSpelling block.signatures signatures) :
      Spelling block (miner ++ (transactions ++
        (Bytes.littleEndian 8 block.nonce.toNat ++ (Bytes.littleEndian 8 block.difficulty.toNat ++
        (Bytes.littleEndian 8 block.timestamp.toNat ++ (block.previous.bytes ++
        (Bytes.littleEndian 8 block.miningTime.toNanos64.toNat ++
        (preVerifiers ++ (preSignatures ++ (verifiers ++ signatures))))))))))

end Block

/-! ### What is written is the shortest -/

/-- The bytes are the written ones, or there are more of them. -/
def WrittenOrLonger (written bytes : Bytes) : Prop :=
  bytes = written ∨ written.length < bytes.length

theorem WrittenOrLonger.refl (bytes : Bytes) : WrittenOrLonger bytes bytes := Or.inl rfl

theorem WrittenOrLonger.length_le {written bytes : Bytes} (h : WrittenOrLonger written bytes) :
    written.length ≤ bytes.length := by
  rcases h with rfl | hlonger
  · exact Nat.le_refl _
  · exact Nat.le_of_lt hlonger

theorem WrittenOrLonger.append {written bytes more others : Bytes}
    (h : WrittenOrLonger written bytes) (hmore : WrittenOrLonger more others) :
    WrittenOrLonger (written ++ more) (bytes ++ others) := by
  have hlength := h.length_le
  have hmoreLength := hmore.length_le
  by_cases hsame : bytes = written ∧ others = more
  · obtain ⟨rfl, rfl⟩ := hsame
    exact .refl _
  · refine Or.inr ?_
    rw [List.length_append, List.length_append]
    rcases h with rfl | hlonger
    · rcases hmore with rfl | hlonger
      · exact absurd ⟨rfl, rfl⟩ hsame
      · omega
    · omega

namespace Varint

theorem spelling_encode {n : Nat} (h : n < 2 ^ 64) : Spelling n (encode n) := by
  unfold encode
  split
  · exact .byte ‹_›
  split
  · exact .two (by omega)
  split
  · exact .four (by omega)
  · exact .eight h

/-- The written form is the narrowest that holds the number. -/
theorem Spelling.writtenOrLonger {n : Nat} {bytes : Bytes} (h : Spelling n bytes) :
    WrittenOrLonger (encode n) bytes := by
  unfold encode
  by_cases hbyte : n ≤ 0xfc
  · rw [if_pos hbyte]
    cases h with
    | byte => exact .refl _
    | two => exact Or.inr (by simp)
    | four => exact Or.inr (by simp)
    | eight => exact Or.inr (by simp)
  by_cases htwo : n ≤ 0xffff
  · rw [if_neg hbyte, if_pos htwo]
    cases h with
    | byte h => exact absurd h hbyte
    | two => exact .refl _
    | four => exact Or.inr (by simp)
    | eight => exact Or.inr (by simp)
  by_cases hfour : n ≤ 0xffffffff
  · rw [if_neg hbyte, if_neg htwo, if_pos hfour]
    cases h with
    | byte h => exact absurd h hbyte
    | two h => omega
    | four => exact .refl _
    | eight => exact Or.inr (by simp)
  · rw [if_neg hbyte, if_neg htwo, if_neg hfour]
    cases h with
    | byte h => exact absurd h hbyte
    | two h => omega
    | four h => omega
    | eight => exact .refl _

end Varint

namespace Prefixed

variable {α : Type} {spelled : α → Bytes → Prop} {item : α → Bytes} {items : List α} {bytes : Bytes}

theorem spelling_encode (h : bytes.length < 2 ^ 64) : Spelling bytes (encode bytes) :=
  .intro (Varint.spelling_encode h)

theorem Spelling.writtenOrLonger {spelling : Bytes} (h : Spelling bytes spelling) :
    WrittenOrLonger (encode bytes) spelling := by
  cases h with
  | intro hlength => exact hlength.writtenOrLonger.append (.refl bytes)

theorem row_flatMap (h : ∀ x ∈ items, spelled x (item x)) :
    Row spelled items (items.flatMap item) := by
  induction items with
  | nil => exact .nil
  | cons x rest ih =>
      rw [List.flatMap_cons]
      exact .cons (h x List.mem_cons_self) (ih fun y hy => h y (List.mem_cons_of_mem x hy))

/-- The same spellings, of other values. -/
theorem Row.map {β : Type} {other : β → Bytes → Prop} {change : α → β} (h : Row spelled items bytes)
    (hchange : ∀ x front, spelled x front → other (change x) front) :
    Row other (items.map change) bytes := by
  induction h with
  | nil => exact .nil
  | cons hhead _ ih => exact .cons (hchange _ _ hhead) ih

theorem ListSpelling.map {β : Type} {other : β → Bytes → Prop} {change : α → β}
    (h : ListSpelling spelled items bytes)
    (hchange : ∀ x front, spelled x front → other (change x) front) :
    ListSpelling other (items.map change) bytes := by
  cases h with
  | intro hlength hrow =>
      refine .intro ?_ (hrow.map hchange)
      rwa [List.length_map]

theorem Row.writtenOrLonger (h : Row spelled items bytes)
    (hitem : ∀ x front, spelled x front → WrittenOrLonger (item x) front) :
    WrittenOrLonger (items.flatMap item) bytes := by
  induction h with
  | nil => exact .refl _
  | cons hhead _ ih =>
      rw [List.flatMap_cons]
      exact (hitem _ _ hhead).append ih

theorem spelling_encodeMany (hlength : items.length < 2 ^ 64)
    (h : ∀ x ∈ items, spelled x (item x)) :
    ListSpelling spelled items (encodeMany item items) :=
  .intro (Varint.spelling_encode hlength) (row_flatMap h)

theorem ListSpelling.writtenOrLonger (h : ListSpelling spelled items bytes)
    (hitem : ∀ x front, spelled x front → WrittenOrLonger (item x) front) :
    WrittenOrLonger (encodeMany item items) bytes := by
  cases h with
  | intro hlength hrow => exact hlength.writtenOrLonger.append (hrow.writtenOrLonger hitem)

end Prefixed

theorem Transaction.Spelling.writtenOrLonger {tx : Transaction} {bytes : Bytes}
    (h : Spelling tx bytes) : WrittenOrLonger tx.encode bytes := by
  cases h with
  | intro hsender hrecipient =>
      rw [encode, List.append_assoc, List.append_assoc]
      exact hsender.writtenOrLonger.append (hrecipient.writtenOrLonger.append (.refl _))

/-- **No spelling of a block is as short as the written one.** -/
theorem Block.Spelling.writtenOrLonger {block : Block} {bytes : Bytes} (h : Spelling block bytes) :
    WrittenOrLonger block.encode bytes := by
  cases h with
  | intro hminer htransactions hpreVerifiers hpreSignatures hverifiers hsignatures =>
      rw [encode, encodeIn]
      refine hminer.writtenOrLonger.append ?_
      refine (htransactions.writtenOrLonger fun _ _ h => h.writtenOrLonger).append ?_
      refine WrittenOrLonger.append (.refl _) ?_
      refine WrittenOrLonger.append (.refl _) ?_
      refine WrittenOrLonger.append (.refl _) ?_
      refine WrittenOrLonger.append (.refl _) ?_
      refine WrittenOrLonger.append (.refl _) ?_
      refine (hpreVerifiers.writtenOrLonger fun _ _ h => h.writtenOrLonger).append ?_
      refine (hpreSignatures.writtenOrLonger fun _ _ h => h.writtenOrLonger).append ?_
      refine (hverifiers.writtenOrLonger fun _ _ h => h.writtenOrLonger).append ?_
      exact hsignatures.writtenOrLonger fun _ _ h => h.writtenOrLonger

/-! ### Spellings and decoders -/

namespace Decoder

variable {α β : Type}

/-- What the decoder takes for a value is one of its spellings. -/
def Consumes (decoder : Decoder α) (spelled : α → Bytes → Prop) : Prop :=
  ∀ input x rest, decoder input = .ok (x, rest) → ∃ front, spelled x front ∧ input = front ++ rest

theorem consumes_pure {spelled : α → Bytes → Prop} {x : α} (h : spelled x []) :
    (pure x : Decoder α).Consumes spelled := by
  intro input y rest hok
  obtain ⟨rfl, rfl⟩ := Prod.mk.inj (Except.ok.inj hok)
  exact ⟨[], h, rfl⟩

/-- **What is consumed one after another is consumed as one.** -/
theorem Consumes.bind {decoder : Decoder α} {next : α → Decoder β} {first : α → Bytes → Prop}
    {spelled : β → Bytes → Prop} (hfirst : decoder.Consumes first)
    (hnext : ∀ x front, first x front →
      (next x).Consumes fun y back => spelled y (front ++ back)) :
    (decoder >>= next).Consumes spelled := by
  intro input y rest hok
  cases hread : decoder input with
  | error e =>
      rw [bind_of_error hread] at hok
      exact absurd hok (by simp)
  | ok pair =>
      obtain ⟨x, middle⟩ := pair
      rw [bind_of_ok hread] at hok
      obtain ⟨front, hfront, rfl⟩ := hfirst input x middle hread
      obtain ⟨back, hback, rfl⟩ := hnext x front hfront middle y rest hok
      exact ⟨front ++ back, hback, (List.append_assoc front back rest).symm⟩

theorem consumes_exactly (count : Nat) :
    (exactly count).Consumes fun bytes front => bytes.length = count ∧ front = bytes := by
  intro input bytes rest hok
  unfold exactly at hok
  split at hok
  · rename_i split hsplit
    obtain rfl := Except.ok.inj hok
    obtain ⟨hlength, hinput⟩ := Bytes.splitExact_eq_some_iff.mp hsplit
    exact ⟨bytes, ⟨hlength, rfl⟩, hinput⟩
  · exact absurd hok (by simp)

theorem consumes_word (width : Nat) :
    (word width).Consumes fun n front => n < 256 ^ width ∧ front = Bytes.littleEndian width n := by
  intro input n rest hok
  unfold word at hok
  split at hok
  · rename_i front left hsplit
    obtain ⟨rfl, rfl⟩ := Prod.mk.inj (Except.ok.inj hok)
    obtain ⟨rfl, hinput⟩ := Bytes.splitExact_eq_some_iff.mp hsplit
    exact ⟨front, ⟨Bytes.littleEndianValue_lt front,
      (Bytes.littleEndian_littleEndianValue front).symm⟩, hinput⟩
  · exact absurd hok (by simp)

theorem consumes_word64 : word64.Consumes fun x front => front = Bytes.littleEndian 8 x.toNat := by
  refine (consumes_word 8).bind fun n front hfront => consumes_pure ?_
  obtain ⟨hn, rfl⟩ := hfront
  have hword : n < 2 ^ 64 := hn
  rw [List.append_nil, UInt64.toNat_ofNat', Nat.mod_eq_of_lt hword]

theorem reads_row {item : Decoder α} {spelled : α → Bytes → Prop} {items : List α} {bytes : Bytes}
    (h : Prefixed.Row spelled items bytes)
    (hitem : ∀ x ∈ items, ∀ front, spelled x front → item.Reads front x) :
    (times item items.length).Reads bytes items := by
  induction h with
  | nil => exact reads_pure []
  | @cons x rest front back hhead _ ih =>
      refine (hitem x List.mem_cons_self front hhead).bind ?_
      exact (ih fun y hy => hitem y (List.mem_cons_of_mem x hy)).map _

theorem consumes_times {item : Decoder α} {spelled : α → Bytes → Prop} (h : item.Consumes spelled)
    (count : Nat) :
    (times item count).Consumes fun items bytes =>
      items.length = count ∧ Prefixed.Row spelled items bytes := by
  induction count with
  | zero => exact consumes_pure ⟨rfl, .nil⟩
  | succ count ih =>
      refine h.bind fun x front hfront => ih.bind fun others back hothers => consumes_pure ?_
      obtain ⟨rfl, hrow⟩ := hothers
      rw [List.append_nil]
      exact ⟨rfl, .cons hfront hrow⟩

end Decoder

namespace Varint

/-- **Any form of a number is read as it.** -/
theorem Spelling.reads {n : Nat} {bytes : Bytes} (h : Spelling n bytes) :
    Decoder.Reads decode bytes n := by
  cases h with
  | byte h =>
      refine ⟨fun rest => ?_, fun front hfront hne => ?_⟩
      · have hread := decode_encode n rest (Nat.lt_of_le_of_lt h (by decide))
        rwa [encode, if_pos h] at hread
      · have hshort := Bytes.length_lt_of_cutOff hfront hne
        rw [List.length_singleton, Nat.lt_one_iff, List.length_eq_zero_iff] at hshort
        rw [hshort]
        rfl
  | two h => exact reads_marked h fun _ => rfl
  | four h => exact reads_marked h fun _ => rfl
  | eight h => exact reads_marked h fun _ => rfl

/-- A number in one of its wide forms was read off a marker and a word. -/
theorem consumes_marked {marker : UInt8} {width : Nat} {input rest : Bytes} {n : Nat}
    (hread : Decoder.word width input = .ok (n, rest))
    (hform : n < 256 ^ width → Spelling n (marker :: Bytes.littleEndian width n)) :
    ∃ front, Spelling n front ∧ marker :: input = front ++ rest := by
  obtain ⟨front, ⟨hn, rfl⟩, rfl⟩ := Decoder.consumes_word width input n rest hread
  exact ⟨_, hform hn, rfl⟩

theorem consumes_decode : Decoder.Consumes decode Spelling := by
  intro input n rest hok
  cases input with
  | nil => exact absurd hok (by simp [decode])
  | cons marker more =>
      simp only [decode] at hok
      split at hok
      · rename_i hmarker
        obtain ⟨rfl, rfl⟩ := Prod.mk.inj (Except.ok.inj hok)
        refine ⟨[UInt8.ofNat marker.toNat], .byte (UInt8.le_iff_toNat_le.mp hmarker), ?_⟩
        rw [UInt8.ofNat_toNat, List.singleton_append]
      split at hok
      · rename_i hmarker
        subst hmarker
        exact consumes_marked hok .two
      split at hok
      · rename_i hmarker
        subst hmarker
        exact consumes_marked hok .four
      · rename_i hbyte htwo hfour
        -- the one marker that is left
        obtain rfl : marker = 0xff := by
          rw [UInt8.le_iff_toNat_le] at hbyte
          rw [← UInt8.toNat_inj] at htwo hfour ⊢
          have hmarker := marker.toNat_lt
          simp only [UInt8.reduceToNat] at hbyte htwo hfour ⊢
          omega
        exact consumes_marked hok .eight

end Varint

namespace Prefixed

variable {α : Type} {limit : Nat}

/-- A length is taken in any of its forms. -/
theorem reads_spelledLength {n : Nat} {bytes : Bytes} (hlimit : n ≤ limit)
    (h : Varint.Spelling n bytes) : (length limit).Reads bytes n := by
  have hboth : (length limit).Reads (bytes ++ []) n := by
    refine h.reads.bind ?_
    rw [if_neg (Nat.not_lt.mpr hlimit)]
    exact Decoder.reads_pure n
  rwa [List.append_nil] at hboth

theorem Spelling.reads {bytes spelling : Bytes} (h : Spelling bytes spelling)
    (hlimit : bytes.length ≤ limit) : (decode limit).Reads spelling bytes := by
  cases h with
  | intro hlength => exact (reads_spelledLength hlimit hlength).bind (Decoder.reads_exactly rfl)

theorem ListSpelling.reads {spelled : α → Bytes → Prop} {item : Decoder α} {items : List α}
    {bytes : Bytes} (h : ListSpelling spelled items bytes) (hlimit : items.length ≤ limit)
    (hitem : ∀ x ∈ items, ∀ front, spelled x front → item.Reads front x) :
    (decodeMany limit item).Reads bytes items := by
  cases h with
  | intro hlength hrow =>
      exact (reads_spelledLength hlimit hlength).bind (Decoder.reads_row hrow hitem)

theorem consumes_length (limit : Nat) : (length limit).Consumes Varint.Spelling := by
  refine Varint.consumes_decode.bind fun n front hfront => ?_
  split
  · intro input x rest hok
    exact absurd hok (by simp [throw, throwThe, MonadExceptOf.throw, StateT.lift, bind, Except.bind])
  · exact Decoder.consumes_pure ((List.append_nil front).symm ▸ hfront)

theorem consumes_decode (limit : Nat) : (decode limit).Consumes Spelling := by
  refine (consumes_length limit).bind fun n front hfront => ?_
  intro input bytes rest hok
  obtain ⟨_, ⟨rfl, rfl⟩, hinput⟩ := Decoder.consumes_exactly n input bytes rest hok
  exact ⟨_, .intro hfront, hinput⟩

theorem consumes_decodeMany {item : Decoder α} {spelled : α → Bytes → Prop}
    (h : item.Consumes spelled) (limit : Nat) :
    (decodeMany limit item).Consumes (ListSpelling spelled) := by
  refine (consumes_length limit).bind fun n front hfront => ?_
  intro input items rest hok
  obtain ⟨row, ⟨rfl, hrow⟩, hinput⟩ := Decoder.consumes_times h n input items rest hok
  exact ⟨row, .intro hfront hrow, hinput⟩

end Prefixed

end AttestedLedger
