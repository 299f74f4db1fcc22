import WorkLedger.Decimal.Numeral

/-!
# The float of a numeral

A numeral is read as a float in two steps. Its digits are taken from the left for as long as the
number that they make is a word of 64 bits, and this word is rounded to a float. The float is then
multiplied or divided by a power of ten, which rounds once more. The result is as a rule the float
nearest to the number that is written, and otherwise one beside it.
-/

namespace WorkLedger

namespace Decimal

/-- The largest exponent of a power of ten that is finite as a float. -/
def largestExponent : Nat := 308

/-- The float nearest to a power of ten. -/
def tenTo (n : Nat) : Float := Float.ofScientific 1 false n

/-- A float times a power of ten. Beyond the largest finite power only zero stays finite. -/
def multiplied (x : Float) (n : Nat) : Float :=
  if n ≤ largestExponent then x * tenTo n
  else if x == 0.0 then x
  else 1.0 / 0.0

/-- A float divided by a power of ten, by the largest finite one for as long as that is needed and
something is left. -/
def divided (x : Float) (n : Nat) : Float :=
  if n ≤ largestExponent then x / tenTo n
  else if x == 0.0 then x
  else divided (x / tenTo largestExponent) (n - largestExponent)
termination_by n
decreasing_by simp only [largestExponent] at *; omega

/-- Appends digits to a number for as long as it stays a word of 64 bits. The other digits are what
is left. -/
def takeWord : Nat → List Digit → Nat × List Digit
  | n, [] => (n, [])
  | n, d :: ds => if n * 10 + d.val < UInt64.size then takeWord (n * 10 + d.val) ds else (n, d :: ds)

end Decimal

namespace Numeral

/-- The digits of a numeral that fit in a word, and the power of ten that the word is multiplied by.
Every digit before the point that is left out counts for one, and every digit after the point that
is taken in against it. -/
def toWord (n : Numeral) : Nat × Int :=
  let (front, left) := Decimal.takeWord 0 n.whole
  let (word, unread) := Decimal.takeWord front n.fraction
  (word, (n.exponent.map Exponent.toInt).getD 0 + left.length
    - (n.fraction.length - unread.length : Nat))

/-- The float of a numeral; infinite when it is beyond the largest finite one. -/
def toFloat (n : Numeral) : Float :=
  let (word, shift) := n.toWord
  let size :=
    if shift < 0 then Decimal.divided (Float.ofNat word) shift.natAbs
    else Decimal.multiplied (Float.ofNat word) shift.natAbs
  if n.negative then -size else size

end Numeral

end WorkLedger
