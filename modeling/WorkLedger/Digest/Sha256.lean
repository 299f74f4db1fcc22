import WorkLedger.Bytes.BigEndian
import WorkLedger.Bytes.Hex

/-!
# SHA-256

The message is padded to whole blocks of sixteen 32-bit words, and every block is mixed into eight
chaining words by sixty-four rounds. The round words are produced on the way: a window holds the
next sixteen of them, and each round takes one from its front and adds one at its end.

All recursion is on lists and counters, so the digest of a closed text reduces.
-/

namespace WorkLedger.Sha256

/-- The eight chaining words. -/
structure Chaining where
  a : UInt32
  b : UInt32
  c : UInt32
  d : UInt32
  e : UInt32
  f : UInt32
  g : UInt32
  h : UInt32

/-- The chaining words before the first block: the fractions of the square roots of the first
eight primes. -/
def start : Chaining :=
  ⟨0x6a09e667, 0xbb67ae85, 0x3c6ef372, 0xa54ff53a, 0x510e527f, 0x9b05688c, 0x1f83d9ab, 0x5be0cd19⟩

/-- The constants of the sixty-four rounds: the fractions of the cube roots of the first
sixty-four primes. -/
def roundConstants : List UInt32 := [
  0x428a2f98, 0x71374491, 0xb5c0fbcf, 0xe9b5dba5, 0x3956c25b, 0x59f111f1, 0x923f82a4, 0xab1c5ed5,
  0xd807aa98, 0x12835b01, 0x243185be, 0x550c7dc3, 0x72be5d74, 0x80deb1fe, 0x9bdc06a7, 0xc19bf174,
  0xe49b69c1, 0xefbe4786, 0x0fc19dc6, 0x240ca1cc, 0x2de92c6f, 0x4a7484aa, 0x5cb0a9dc, 0x76f988da,
  0x983e5152, 0xa831c66d, 0xb00327c8, 0xbf597fc7, 0xc6e00bf3, 0xd5a79147, 0x06ca6351, 0x14292967,
  0x27b70a85, 0x2e1b2138, 0x4d2c6dfc, 0x53380d13, 0x650a7354, 0x766a0abb, 0x81c2c92e, 0x92722c85,
  0xa2bfe8a1, 0xa81a664b, 0xc24b8b70, 0xc76c51a3, 0xd192e819, 0xd6990624, 0xf40e3585, 0x106aa070,
  0x19a4c116, 0x1e376c08, 0x2748774c, 0x34b0bcb5, 0x391c0cb3, 0x4ed8aa4a, 0x5b9cca4f, 0x682e6ff3,
  0x748f82ee, 0x78a5636f, 0x84c87814, 0x8cc70208, 0x90befffa, 0xa4506ceb, 0xbef9a3f7, 0xc67178f2]

/-- Rotates a word to the right by `n` places, `n` strictly between 0 and 32. -/
def rotate (x n : UInt32) : UInt32 := (x >>> n) ||| (x <<< (32 - n))

/-- One round with the round constant `k` and the round word `w`. -/
def Chaining.round (s : Chaining) (k w : UInt32) : Chaining :=
  let t1 := s.h + (rotate s.e 6 ^^^ rotate s.e 11 ^^^ rotate s.e 25)
    + ((s.e &&& s.f) ^^^ (~~~s.e &&& s.g)) + k + w
  let t2 := (rotate s.a 2 ^^^ rotate s.a 13 ^^^ rotate s.a 22)
    + ((s.a &&& s.b) ^^^ (s.a &&& s.c) ^^^ (s.b &&& s.c))
  ⟨t1 + t2, s.a, s.b, s.c, s.d + t1, s.e, s.f, s.g⟩

/-- The word that joins the window when `w` leaves it and `rest` stays. -/
def nextWord (w : UInt32) (rest : List UInt32) : UInt32 :=
  let w1 := rest.getD 0 0
  let w14 := rest.getD 13 0
  (rotate w14 17 ^^^ rotate w14 19 ^^^ (w14 >>> 10)) + rest.getD 8 0
    + (rotate w1 7 ^^^ rotate w1 18 ^^^ (w1 >>> 3)) + w

/-- The rounds of one block, one for each constant. -/
def rounds : List UInt32 → List UInt32 → Chaining → Chaining
  | k :: ks, w :: rest, s => rounds ks (rest ++ [nextWord w rest]) (s.round k w)
  | _, _, s => s

/-- Mixes one block of sixteen words into the chaining words. -/
def Chaining.compress (s : Chaining) (block : List UInt32) : Chaining :=
  let t := rounds roundConstants block s
  ⟨s.a + t.a, s.b + t.b, s.c + t.c, s.d + t.d, s.e + t.e, s.f + t.f, s.g + t.g, s.h + t.h⟩

/-- Mixes a count of blocks into the chaining words. -/
def Chaining.absorb (s : Chaining) : Nat → List UInt32 → Chaining
  | 0, _ => s
  | blocks + 1, words => (s.compress (words.take 16)).absorb blocks (words.drop 16)

/-- The 32-bit words of a byte string. -/
def words : List UInt8 → List UInt32
  | a :: b :: c :: d :: rest =>
    ((a.toUInt32 <<< 24) ||| (b.toUInt32 <<< 16) ||| (c.toUInt32 <<< 8) ||| d.toUInt32)
      :: words rest
  | _ => []

/-- The message followed by a one bit, zeros up to a whole block, and its length in bits. -/
def pad (message : List UInt8) : List UInt8 :=
  message ++ (0x80 :: List.replicate ((119 - message.length % 64) % 64) 0)
    ++ BigEndian.ofNat 8 (8 * message.length)

/-- The bytes of one word. -/
def wordBytes (w : UInt32) : List UInt8 := BigEndian.ofNat 4 w.toNat

/-- The digest of a byte string, thirty-two bytes. -/
def hash (message : List UInt8) : List UInt8 :=
  let ws := words (pad message)
  let s := start.absorb (ws.length / 16) ws
  [s.a, s.b, s.c, s.d, s.e, s.f, s.g, s.h].flatMap wordBytes

/-- The digest of a text in UTF-8, as sixty-four lower-case hexadecimal digits. -/
def hexOfText (text : String) : String := Hex.encode (hash text.toByteArray.data.toList)

@[simp] theorem length_hash (message : List UInt8) : (hash message).length = 32 := by
  simp [hash, wordBytes]

end WorkLedger.Sha256
