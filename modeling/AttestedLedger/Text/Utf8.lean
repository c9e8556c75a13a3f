/-
UTF-8, read strictly and read forgivingly.

`next` reads one character and names the length of the ill-formed prefix when there is
none: the longest prefix that could have begun a character, and no length at all when
the input ends inside one.  `firstFault` turns that into the position reported for text
that must be well formed; `decodeLossy` puts one replacement character in place of each
ill-formed prefix and always succeeds.
-/
import AttestedLedger.Bytes

namespace AttestedLedger.Utf8

/-- Where a text stops being UTF-8, and how many bytes are at fault there; no length means
that the text ends inside a character. -/
structure Fault where
  index : Nat
  length : Option Nat
  deriving DecidableEq, Repr

/-- The text shown for a fault. -/
def Fault.message (fault : Fault) : String :=
  match fault.length with
  | some n => s!"invalid utf-8 sequence of {n} bytes from index {fault.index}"
  | none => s!"incomplete utf-8 byte sequence from index {fault.index}"

/-- One step of reading. -/
inductive Step where
  | finished
  | char (c : Char) (width : Nat)
  | ill (length : Option Nat)
  deriving DecidableEq

/-- A byte of the form `10xxxxxx`. -/
def isContinuation (b : UInt8) : Bool := 0x80 ≤ b && b ≤ 0xBF

/-- The second bytes allowed after `lead`, which rules out overlong forms, surrogates and
values past the last code point. -/
def secondRange (lead : UInt8) : UInt8 × UInt8 :=
  if lead = 0xE0 then (0xA0, 0xBF)
  else if lead = 0xED then (0x80, 0x9F)
  else if lead = 0xF0 then (0x90, 0xBF)
  else if lead = 0xF4 then (0x80, 0x8F)
  else (0x80, 0xBF)

/-- How many bytes a character with this first byte has; zero if none begins so. -/
def width (lead : UInt8) : Nat :=
  if lead < 0x80 then 1
  else if lead < 0xC2 then 0
  else if lead < 0xE0 then 2
  else if lead < 0xF0 then 3
  else if lead < 0xF5 then 4
  else 0

/-- The six payload bits of a continuation byte. -/
def payload (b : UInt8) : Nat := b.toNat % 64

/-- The first character of the input, or the length of the ill-formed prefix. -/
def next : Bytes → Step
  | [] => .finished
  | lead :: rest =>
    let (lo, hi) := secondRange lead
    match width lead with
    | 1 => .char (Char.ofNat lead.toNat) 1
    | 2 =>
      match rest with
      | [] => .ill none
      | b :: _ =>
        if isContinuation b then .char (Char.ofNat (lead.toNat % 32 * 64 + payload b)) 2
        else .ill (some 1)
    | 3 =>
      match rest with
      | [] => .ill none
      | b :: rest =>
        if !(lo ≤ b && b ≤ hi) then .ill (some 1)
        else match rest with
          | [] => .ill none
          | c :: _ =>
            if isContinuation c then
              .char (Char.ofNat ((lead.toNat % 16 * 64 + payload b) * 64 + payload c)) 3
            else .ill (some 2)
    | 4 =>
      match rest with
      | [] => .ill none
      | b :: rest =>
        if !(lo ≤ b && b ≤ hi) then .ill (some 1)
        else match rest with
          | [] => .ill none
          | c :: rest =>
            if !isContinuation c then .ill (some 2)
            else match rest with
              | [] => .ill none
              | d :: _ =>
                if isContinuation d then
                  .char (Char.ofNat
                    (((lead.toNat % 8 * 64 + payload b) * 64 + payload c) * 64 + payload d)) 4
                else .ill (some 3)
    | _ => .ill (some 1)

/-- The first fault at or after `index`; the fuel is the number of bytes left. -/
def faultFrom (index : Nat) : Nat → Bytes → Option Fault
  | 0, _ => none
  | fuel + 1, bytes =>
    match next bytes with
    | .finished => none
    | .char _ n => faultFrom (index + n) fuel (bytes.drop n)
    | .ill length => some ⟨index, length⟩

/-- The first place where the bytes are not UTF-8. -/
def firstFault (bytes : Bytes) : Option Fault := faultFrom 0 bytes.length bytes

/-- The characters of the bytes, with a replacement character for each ill-formed prefix. -/
def lossyChars : Nat → Bytes → List Char
  | 0, _ => []
  | fuel + 1, bytes =>
    match next bytes with
    | .finished => []
    | .char c n => c :: lossyChars fuel (bytes.drop n)
    | .ill (some n) => '\uFFFD' :: lossyChars fuel (bytes.drop n)
    | .ill none => ['\uFFFD']

/-- The UTF-8 form of a text. -/
def encode (text : String) : Bytes := text.toUTF8.data.toList

/-- The text of well-formed UTF-8. -/
def decode? (bytes : Bytes) : Option String := String.fromUTF8? ⟨bytes.toArray⟩

/-- Text survives being written and read. -/
theorem decode?_encode (text : String) : decode? (encode text) = some text := by
  have same : (⟨(encode text).toArray⟩ : ByteArray) = text.toUTF8 := by simp [encode]
  have valid : text.toUTF8.IsValidUTF8 := text.isValidUTF8
  rw [decode?, same, String.fromUTF8?, dif_pos valid]
  rfl

/-- The text of any bytes: well-formed UTF-8 is read as it is, and each ill-formed prefix
becomes one replacement character. -/
def decodeLossy (bytes : Bytes) : String :=
  match decode? bytes with
  | some text => text
  | none => String.ofList (lossyChars bytes.length bytes)

/-- Text is not changed by a forgiving reader. -/
theorem decodeLossy_encode (text : String) : decodeLossy (encode text) = text := by
  simp [decodeLossy, decode?_encode]

end AttestedLedger.Utf8
