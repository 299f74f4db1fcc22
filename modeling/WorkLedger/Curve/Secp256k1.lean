/-!
# The curve secp256k1

The points with `y ^ 2 = x ^ 3 + 7` over the field of `fieldSize` elements, and the multiples of the
base point, which form a group of `order` elements. Sums are computed in projective coordinates,
where `(x, y, z)` stands for the point `(x / z ^ 2, y / z ^ 3)` and `z = 0` for the neutral element,
so one division is enough for a whole multiple.
-/

namespace WorkLedger.Secp256k1

/-- The number of elements of the field, a prime. -/
def fieldSize : Nat := 0xfffffffffffffffffffffffffffffffffffffffffffffffffffffffefffffc2f

/-- The number of multiples of the base point, a prime. -/
def order : Nat := 0xfffffffffffffffffffffffffffffffebaaedce6af48a03bbfd25e8cd0364141

/-- A power modulo `m`, by squaring; `bits` bounds the length of the exponent. -/
def power (m : Nat) : Nat → Nat → Nat → Nat
  | 0, _, _ => 1 % m
  | bits + 1, base, exponent =>
    let rest := power m bits (base * base % m) (exponent / 2)
    if exponent % 2 = 1 then rest * base % m else rest

/-- The inverse modulo a prime of at most 256 bits, by Fermat's little theorem. -/
def inverse (m n : Nat) : Nat := power m 256 n (m - 2)

/-- A point of the curve: the neutral element, or its two coordinates. -/
inductive Point where
  | neutral
  | affine (x y : Nat)
  deriving DecidableEq, Repr

/-- The base point. -/
def base : Point :=
  .affine 0x79be667ef9dcbbac55a06295ce870b07029bfcdb2dce28d959f2815b16f81798
    0x483ada7726a3c4655da4fbfc0e1108a8fd17b448a68554199c47d08ffb10d4b8

/-- A point in projective coordinates. -/
structure Projective where
  x : Nat
  y : Nat
  z : Nat

/-- The neutral element. -/
def Projective.zero : Projective := ⟨1, 1, 0⟩

/-- The point with projective coordinates. -/
def Point.toProjective : Point → Projective
  | neutral => .zero
  | affine x y => ⟨x, y, 1⟩

/-- The point that projective coordinates stand for. -/
def Projective.toPoint (p : Projective) : Point :=
  if p.z = 0 then .neutral
  else
    let i := inverse fieldSize p.z
    let i2 := i * i % fieldSize
    .affine (p.x * i2 % fieldSize) (p.y * (i2 * i % fieldSize) % fieldSize)

/-- Subtraction in the field, for reduced `b`. -/
def sub (a b : Nat) : Nat := (a + (fieldSize - b)) % fieldSize

/-- A point added to itself. -/
def Projective.double (p : Projective) : Projective :=
  if p.z = 0 || p.y = 0 then .zero
  else
    let y2 := p.y * p.y % fieldSize
    let s := 4 * (p.x * y2) % fieldSize
    let m := 3 * (p.x * p.x) % fieldSize
    let x := sub (m * m % fieldSize) (2 * s % fieldSize)
    let y := sub (m * sub s x % fieldSize) (8 * (y2 * y2) % fieldSize)
    ⟨x, y, 2 * (p.y * p.z) % fieldSize⟩

/-- The sum of two points. -/
def Projective.add (p q : Projective) : Projective :=
  if p.z = 0 then q
  else if q.z = 0 then p
  else
    let pz2 := p.z * p.z % fieldSize
    let qz2 := q.z * q.z % fieldSize
    let u1 := p.x * qz2 % fieldSize
    let u2 := q.x * pz2 % fieldSize
    let s1 := p.y * (qz2 * q.z % fieldSize) % fieldSize
    let s2 := q.y * (pz2 * p.z % fieldSize) % fieldSize
    if u1 = u2 then
      if s1 = s2 then p.double else .zero
    else
      let h := sub u2 u1
      let r := sub s2 s1
      let h2 := h * h % fieldSize
      let h3 := h2 * h % fieldSize
      let v := u1 * h2 % fieldSize
      let x := sub (sub (r * r % fieldSize) h3) (2 * v % fieldSize)
      let y := sub (r * sub v x % fieldSize) (s1 * h3 % fieldSize)
      ⟨x, y, h * (p.z * q.z % fieldSize) % fieldSize⟩

/-- A multiple of a point by doubling; `bits` bounds the length of the factor. -/
def Projective.multiple : Nat → Nat → Projective → Projective
  | 0, _, _ => .zero
  | bits + 1, n, p =>
    let rest := multiple bits (n / 2) p.double
    if n % 2 = 1 then p.add rest else rest

/-- A multiple of a point, for factors of at most 256 bits. -/
def Point.multiple (n : Nat) (p : Point) : Point :=
  (Projective.multiple 256 n p.toProjective).toPoint

/-- The sum of two points. -/
def Point.add (p q : Point) : Point := (p.toProjective.add q.toProjective).toPoint

end WorkLedger.Secp256k1
