/-
SHA-256.

The message is padded to whole blocks of sixteen 32-bit words: a single one bit, zeros,
and the length in bits as a 64-bit word, most significant byte first.  Each block is
expanded to 64 words and folded into eight registers by 64 rounds; the digest is the
registers' bytes.  Words are 32 bits wide by type, so that sums wrap as the standard
asks.
-/
import AttestedLedger.Digest

namespace AttestedLedger.Sha256

/-- The eight working registers. -/
structure Registers where
  a : UInt32
  b : UInt32
  c : UInt32
  d : UInt32
  e : UInt32
  f : UInt32
  g : UInt32
  h : UInt32
  deriving DecidableEq

/-- The registers before the first block. -/
def initial : Registers :=
  ⟨0x6a09e667, 0xbb67ae85, 0x3c6ef372, 0xa54ff53a, 0x510e527f, 0x9b05688c, 0x1f83d9ab, 0x5be0cd19⟩

/-- One constant per round. -/
def roundConstants : List UInt32 :=
  [0x428a2f98, 0x71374491, 0xb5c0fbcf, 0xe9b5dba5, 0x3956c25b, 0x59f111f1, 0x923f82a4, 0xab1c5ed5,
   0xd807aa98, 0x12835b01, 0x243185be, 0x550c7dc3, 0x72be5d74, 0x80deb1fe, 0x9bdc06a7, 0xc19bf174,
   0xe49b69c1, 0xefbe4786, 0x0fc19dc6, 0x240ca1cc, 0x2de92c6f, 0x4a7484aa, 0x5cb0a9dc, 0x76f988da,
   0x983e5152, 0xa831c66d, 0xb00327c8, 0xbf597fc7, 0xc6e00bf3, 0xd5a79147, 0x06ca6351, 0x14292967,
   0x27b70a85, 0x2e1b2138, 0x4d2c6dfc, 0x53380d13, 0x650a7354, 0x766a0abb, 0x81c2c92e, 0x92722c85,
   0xa2bfe8a1, 0xa81a664b, 0xc24b8b70, 0xc76c51a3, 0xd192e819, 0xd6990624, 0xf40e3585, 0x106aa070,
   0x19a4c116, 0x1e376c08, 0x2748774c, 0x34b0bcb5, 0x391c0cb3, 0x4ed8aa4a, 0x5b9cca4f, 0x682e6ff3,
   0x748f82ee, 0x78a5636f, 0x84c87814, 0x8cc70208, 0x90befffa, 0xa4506ceb, 0xbef9a3f7, 0xc67178f2]

/-! ### One block -/

/-- Rotate right by fewer than 32 places. -/
def rotateRight (x n : UInt32) : UInt32 := (x >>> n) ||| (x <<< (32 - n))

def smallSigma0 (x : UInt32) : UInt32 := rotateRight x 7 ^^^ rotateRight x 18 ^^^ (x >>> 3)
def smallSigma1 (x : UInt32) : UInt32 := rotateRight x 17 ^^^ rotateRight x 19 ^^^ (x >>> 10)
def bigSigma0 (x : UInt32) : UInt32 := rotateRight x 2 ^^^ rotateRight x 13 ^^^ rotateRight x 22
def bigSigma1 (x : UInt32) : UInt32 := rotateRight x 6 ^^^ rotateRight x 11 ^^^ rotateRight x 25

/-- Choose the bits of `y` where `x` has ones and those of `z` elsewhere. -/
def choose (x y z : UInt32) : UInt32 := (x &&& y) ^^^ (~~~x &&& z)

/-- The majority of three, bit by bit. -/
def majority (x y z : UInt32) : UInt32 := (x &&& y) ^^^ (x &&& z) ^^^ (y &&& z)

/-- Append the next word, which depends on the words 2, 7, 15 and 16 places back. -/
def extend (words : Array UInt32) : Array UInt32 :=
  let back (n : Nat) : UInt32 := words.getD (words.size - n) 0
  words.push (smallSigma1 (back 2) + back 7 + smallSigma0 (back 15) + back 16)

/-- The 64 words of a block. -/
def schedule (block : List UInt32) : Array UInt32 := Nat.repeat extend 48 block.toArray

/-- One round. -/
def round (r : Registers) (constant word : UInt32) : Registers :=
  let t1 := r.h + bigSigma1 r.e + choose r.e r.f r.g + constant + word
  let t2 := bigSigma0 r.a + majority r.a r.b r.c
  ⟨t1 + t2, r.a, r.b, r.c, r.d + t1, r.e, r.f, r.g⟩

/-- Add two sets of registers. -/
def Registers.add (r s : Registers) : Registers :=
  ⟨r.a + s.a, r.b + s.b, r.c + s.c, r.d + s.d, r.e + s.e, r.f + s.f, r.g + s.g, r.h + s.h⟩

/-- Run the rounds over constants and words in step. -/
def rounds : List UInt32 → List UInt32 → Registers → Registers
  | k :: ks, w :: ws, r => rounds ks ws (round r k w)
  | _, _, r => r

/-- Fold one block into the registers. -/
def compress (r : Registers) (block : List UInt32) : Registers :=
  r.add (rounds roundConstants (schedule block).toList r)

/-! ### Whole messages -/

/-- Words of four bytes, most significant first. -/
def wordsOf : Bytes → List UInt32
  | a :: b :: c :: d :: rest =>
    ((a.toUInt32 <<< 24) ||| (b.toUInt32 <<< 16) ||| (c.toUInt32 <<< 8) ||| d.toUInt32) :: wordsOf rest
  | _ => []

/-- The message with its padding: a length divisible by 64. -/
def pad (message : Bytes) : Bytes :=
  let n := message.length
  message ++ 0x80 :: (List.replicate ((119 - n % 64) % 64) 0 ++ Bytes.bigEndian 8 (8 * n))

/-- Fold `count` blocks of sixteen words. -/
def absorb : Nat → List UInt32 → Registers → Registers
  | 0, _, r => r
  | count + 1, words, r => absorb count (words.drop 16) (compress r (words.take 16))

/-- The bytes of a word, most significant first. -/
def bytesOf (w : UInt32) : Bytes := Bytes.bigEndian 4 w.toNat

/-- The registers' bytes. -/
def Registers.toDigest (r : Registers) : Digest where
  bytes := [r.a, r.b, r.c, r.d, r.e, r.f, r.g, r.h].flatMap bytesOf
  length_eq := by simp [bytesOf]

/-- The SHA-256 digest of a message. -/
def digest (message : Bytes) : Digest :=
  let words := wordsOf (pad message)
  (absorb (words.length / 16) words initial).toDigest

end AttestedLedger.Sha256
