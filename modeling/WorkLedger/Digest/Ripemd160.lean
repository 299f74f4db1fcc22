import WorkLedger.Bytes.BigEndian

/-!
# RIPEMD-160

Two lines of eighty steps run over each block of sixteen little-endian words, and their results are
added crosswise to the five chaining words. Each line is five rounds of sixteen steps; a round has
its own mixing function and constant, and a step its own word and rotation.
-/

namespace WorkLedger.Ripemd160

/-- The five chaining words. -/
structure Chaining where
  a : UInt32
  b : UInt32
  c : UInt32
  d : UInt32
  e : UInt32

/-- The chaining words before the first block. -/
def start : Chaining := ⟨0x67452301, 0xefcdab89, 0x98badcfe, 0x10325476, 0xc3d2e1f0⟩

/-- The five mixing functions. -/
def mix : Nat → UInt32 → UInt32 → UInt32 → UInt32
  | 0, x, y, z => x ^^^ y ^^^ z
  | 1, x, y, z => (x &&& y) ||| (~~~x &&& z)
  | 2, x, y, z => (x ||| ~~~y) ^^^ z
  | 3, x, y, z => (x &&& z) ||| (y &&& ~~~z)
  | _, x, y, z => x ^^^ (y ||| ~~~z)

/-- One round of a line: which mixing function and constant it uses, and for each of its steps the
position of the message word and the rotation. -/
structure Round where
  mixing : Nat
  constant : UInt32
  positions : List Nat
  rotations : List UInt32

/-- The rounds of the left line. -/
def leftLine : List Round := [
  ⟨0, 0x00000000, [0, 1, 2, 3, 4, 5, 6, 7, 8, 9, 10, 11, 12, 13, 14, 15],
    [11, 14, 15, 12, 5, 8, 7, 9, 11, 13, 14, 15, 6, 7, 9, 8]⟩,
  ⟨1, 0x5a827999, [7, 4, 13, 1, 10, 6, 15, 3, 12, 0, 9, 5, 2, 14, 11, 8],
    [7, 6, 8, 13, 11, 9, 7, 15, 7, 12, 15, 9, 11, 7, 13, 12]⟩,
  ⟨2, 0x6ed9eba1, [3, 10, 14, 4, 9, 15, 8, 1, 2, 7, 0, 6, 13, 11, 5, 12],
    [11, 13, 6, 7, 14, 9, 13, 15, 14, 8, 13, 6, 5, 12, 7, 5]⟩,
  ⟨3, 0x8f1bbcdc, [1, 9, 11, 10, 0, 8, 12, 4, 13, 3, 7, 15, 14, 5, 6, 2],
    [11, 12, 14, 15, 14, 15, 9, 8, 9, 14, 5, 6, 8, 6, 5, 12]⟩,
  ⟨4, 0xa953fd4e, [4, 0, 5, 9, 7, 12, 2, 10, 14, 1, 3, 8, 11, 6, 15, 13],
    [9, 15, 5, 11, 6, 8, 13, 12, 5, 12, 13, 14, 11, 8, 5, 6]⟩]

/-- The rounds of the right line, which takes the mixing functions in the opposite order. -/
def rightLine : List Round := [
  ⟨4, 0x50a28be6, [5, 14, 7, 0, 9, 2, 11, 4, 13, 6, 15, 8, 1, 10, 3, 12],
    [8, 9, 9, 11, 13, 15, 15, 5, 7, 7, 8, 11, 14, 14, 12, 6]⟩,
  ⟨3, 0x5c4dd124, [6, 11, 3, 7, 0, 13, 5, 10, 14, 15, 8, 12, 4, 9, 1, 2],
    [9, 13, 15, 7, 12, 8, 9, 11, 7, 7, 12, 7, 6, 15, 13, 11]⟩,
  ⟨2, 0x6d703ef3, [15, 5, 1, 3, 7, 14, 6, 9, 11, 8, 12, 2, 10, 0, 4, 13],
    [9, 7, 15, 11, 8, 6, 6, 14, 12, 13, 5, 14, 13, 13, 7, 5]⟩,
  ⟨1, 0x7a6d76e9, [8, 6, 4, 1, 3, 11, 15, 0, 5, 12, 2, 13, 9, 7, 10, 14],
    [15, 5, 8, 11, 14, 14, 6, 14, 6, 9, 12, 9, 12, 5, 15, 8]⟩,
  ⟨0, 0x00000000, [12, 15, 10, 4, 1, 5, 8, 7, 6, 2, 13, 14, 0, 3, 9, 11],
    [8, 5, 12, 9, 12, 5, 14, 6, 8, 13, 6, 5, 15, 13, 11, 11]⟩]

/-- Rotates a word to the left by `n` places, `n` strictly between 0 and 32. -/
def rotate (x n : UInt32) : UInt32 := (x <<< n) ||| (x >>> (32 - n))

/-- One step with the message word `w` and the rotation `n`. -/
def Chaining.step (s : Chaining) (mixing : Nat) (constant w n : UInt32) : Chaining :=
  ⟨s.e, rotate (s.a + mix mixing s.b s.c s.d + w + constant) n + s.e, s.b, rotate s.c 10, s.d⟩

/-- The sixteen steps of one round. -/
def Chaining.round (s : Chaining) (block : List UInt32) (r : Round) : Chaining :=
  (r.positions.zip r.rotations).foldl
    (fun s (position, n) => s.step r.mixing r.constant (block.getD position 0) n) s

/-- Mixes one block of sixteen words into the chaining words. -/
def Chaining.compress (s : Chaining) (block : List UInt32) : Chaining :=
  let l := leftLine.foldl (fun s r => s.round block r) s
  let r := rightLine.foldl (fun s r => s.round block r) s
  ⟨s.b + l.c + r.d, s.c + l.d + r.e, s.d + l.e + r.a, s.e + l.a + r.b, s.a + l.b + r.c⟩

/-- Mixes a count of blocks into the chaining words. -/
def Chaining.absorb (s : Chaining) : Nat → List UInt32 → Chaining
  | 0, _ => s
  | blocks + 1, words => (s.compress (words.take 16)).absorb blocks (words.drop 16)

/-- The 32-bit words of a byte string, the least significant byte of each first. -/
def words : List UInt8 → List UInt32
  | a :: b :: c :: d :: rest =>
    (a.toUInt32 ||| (b.toUInt32 <<< 8) ||| (c.toUInt32 <<< 16) ||| (d.toUInt32 <<< 24))
      :: words rest
  | _ => []

/-- The message followed by a one bit, zeros up to a whole block, and its length in bits. -/
def pad (message : List UInt8) : List UInt8 :=
  message ++ (0x80 :: List.replicate ((119 - message.length % 64) % 64) 0)
    ++ (BigEndian.ofNat 8 (8 * message.length)).reverse

/-- The digest of a byte string, twenty bytes. -/
def hash (message : List UInt8) : List UInt8 :=
  let ws := words (pad message)
  let s := start.absorb (ws.length / 16) ws
  [s.a, s.b, s.c, s.d, s.e].flatMap fun w => (BigEndian.ofNat 4 w.toNat).reverse

end WorkLedger.Ripemd160
