import WorkLedger.Decimal.Numeral

/-!
# The shortest decimal of a float

A finite float stands for a whole interval of reals, those that round to it. Among the decimals in
that interval the ones with the fewest digits are looked for, and of these the nearest to the float
is taken; of two at the same distance a rule for ties takes one. On a grid of powers of ten only the
two neighbours of the float can be the answer: if any point of the grid lies in the interval, one of
them does. All arithmetic is exact.
-/

namespace WorkLedger.Decimal

/-- A positive number `mantissa * 2 ^ exponent`, and whether the float below it is only half as far
away as the float above it. -/
structure Binary where
  mantissa : Nat
  exponent : Int
  narrow : Bool
  deriving DecidableEq, Repr

/-- What the bits of a float stand for. -/
inductive FloatKind where
  | nan
  | infinite (negative : Bool)
  | zero (negative : Bool)
  | finite (negative : Bool) (size : Binary)
  deriving DecidableEq, Repr

/-- The kind of the float with the given bits: a sign, eleven bits of exponent and fifty-two of
mantissa. -/
def kindOfBits (bits : Nat) : FloatKind :=
  let negative := decide (0x8000000000000000 ≤ bits)
  let biased : Nat := bits / 0x10000000000000 % 0x800
  let low : Nat := bits % 0x10000000000000
  if biased = 2047 then
    if low = 0 then .infinite negative else .nan
  else if biased = 0 then
    if low = 0 then .zero negative else .finite negative ⟨low, -1074, false⟩
  else .finite negative ⟨0x10000000000000 + low, (biased : Int) - 1075, decide (low = 0 ∧ 1 < biased)⟩

/-- A positive fraction. -/
structure Ratio where
  num : Nat
  den : Nat

/-- The fraction `n * 2 ^ e`. -/
def Ratio.ofBinary (n : Nat) (e : Int) : Ratio :=
  if e < 0 then ⟨n, Nat.pow 2 e.natAbs⟩ else ⟨n * Nat.pow 2 e.natAbs, 1⟩

/-- The fraction divided by `10 ^ e`. -/
def Ratio.scale (r : Ratio) (e : Int) : Ratio :=
  if e < 0 then ⟨r.num * Nat.pow 10 e.natAbs, r.den⟩ else ⟨r.num, r.den * Nat.pow 10 e.natAbs⟩

/-- Looks upwards for the exponent of the leading digit: the first one from `e` on for which the
next power of ten is larger than the number. -/
def Ratio.leadingFrom (r : Ratio) : Nat → Int → Int
  | 0, e => e
  | steps + 1, e =>
    let s := r.scale (e + 1)
    if s.num < s.den then e else leadingFrom r steps (e + 1)

/-- The exponent of the leading digit of a positive float's size. A bound below it comes from the
binary exponent, and is at most a few steps away. -/
def Binary.leading (b : Binary) : Int :=
  let log : Int := b.mantissa.log2 + b.exponent
  (Ratio.ofBinary b.mantissa b.exponent).leadingFrom 8 (log * 30103 / 100000 - 2)

/-- A decimal `digits * 10 ^ exponent`. -/
structure Shifted where
  digits : Nat
  exponent : Int
  deriving DecidableEq, Repr

/-- What becomes of a number halfway between two neighbours on a grid. -/
inductive Tie where
  /-- It goes to the neighbour whose last digit is even. -/
  | toEven
  /-- It goes to the larger neighbour. -/
  | up
  deriving DecidableEq, Repr

/-- Whether a number halfway between `below` and `below + 1` goes down. -/
def Tie.goesDown : Tie → Nat → Bool
  | .toEven, below => below % 2 == 0
  | .up, _ => false

/-- The neighbour of the float on the grid of `10 ^ e` that rounds to it, the nearer one if both
do; at the same distance the one that the rule for ties takes. In units of `2 ^ (exponent - 2)` the float is at
`4 * mantissa`, and the ends of its interval are two units away (one unit below, if narrow). They
belong to it when the mantissa is even. -/
def Binary.onGrid (b : Binary) (tie : Tie) (e : Int) : Option Shifted :=
  let unit := (Ratio.ofBinary 1 (b.exponent - 2)).scale e
  let at4 := 4 * b.mantissa
  let value := at4 * unit.num
  let below := value / unit.den
  let above := below + 1
  let low := (at4 - if b.narrow then 1 else 2) * unit.num
  let high := (at4 + 2) * unit.num
  let even := b.mantissa % 2 == 0
  let belowFits := decide (low < below * unit.den) || (even && decide (low = below * unit.den))
  let aboveFits := decide (above * unit.den < high) || (even && decide (above * unit.den = high))
  let toBelow := value - below * unit.den
  let toAbove := above * unit.den - value
  match belowFits, aboveFits with
  | true, true =>
    some (if toBelow < toAbove ∨ (toBelow = toAbove ∧ tie.goesDown below) then ⟨below, e⟩
      else ⟨above, e⟩)
  | true, false => some ⟨below, e⟩
  | false, true => some ⟨above, e⟩
  | false, false => none

/-- Tries the grids from `10 ^ e` downwards. Seventeen digits are always enough. -/
def Binary.shortestFrom (b : Binary) (tie : Tie) : Nat → Int → Shifted
  | 0, e => ⟨b.mantissa, e⟩
  | grids + 1, e =>
    match b.onGrid tie e with
    | some d => d
    | none => shortestFrom b tie grids (e - 1)

/-- The shortest decimal that rounds to a float's size. -/
def Binary.shortest (b : Binary) (tie : Tie) : Shifted := b.shortestFrom tie 18 b.leading

/-- A list without the zeros at its end. -/
def dropTrailingZeros (ds : List Digit) : List Digit :=
  (ds.reverse.dropWhile (· == Digit.zero)).reverse

/-- A decimal as its digits and the exponent of the first of them. -/
structure Scientific where
  digits : List Digit
  exponent : Int
  deriving DecidableEq, Repr

/-- The digits of a decimal, without zeros at the end. -/
def Shifted.toScientific (d : Shifted) : Scientific :=
  let ds := Decimal.digits d.digits
  ⟨dropTrailingZeros ds, d.exponent + ds.length - 1⟩

end WorkLedger.Decimal
