import WorkLedger.Decimal.Shortest

/-!
# Layout of a decimal

The same digits can be laid out with the point in place or in scientific form. A layout says which
exponents are written positionally, whether a whole number shows a point, and how ties between two
shortest decimals are broken.
-/

namespace WorkLedger.Decimal

/-- How a decimal is laid out. -/
structure Layout where
  /-- The smallest exponent of the leading digit that is written positionally. -/
  positionalFrom : Option Int
  /-- The smallest exponent that is too large for it. -/
  positionalBelow : Option Int
  /-- Whether a whole number is written with a point and a zero. -/
  showPoint : Bool
  /-- Which of two shortest decimals at the same distance is written. -/
  tie : Tie

/-- Whether a leading digit of exponent `e` is written positionally. -/
def Layout.isPositional (l : Layout) (e : Int) : Bool :=
  l.positionalFrom.all (fun low => decide (low ≤ e))
    && l.positionalBelow.all (fun high => decide (e < high))

/-- The digits after the point of a whole number. -/
def Layout.noFraction (l : Layout) : List Digit := if l.showPoint then [Digit.zero] else []

/-- The numeral of zero. -/
def Layout.zero (l : Layout) (negative : Bool) : Numeral := ⟨negative, [Digit.zero], l.noFraction, none⟩

/-- The positional numeral of a decimal. -/
def Layout.positional (l : Layout) (negative : Bool) (d : Scientific) : Numeral :=
  if d.exponent < 0 then
    ⟨negative, [Digit.zero],
      List.replicate (d.exponent.natAbs - 1) Digit.zero ++ d.digits, none⟩
  else
    let places := d.exponent.natAbs + 1
    let fraction := d.digits.drop places
    ⟨negative, d.digits.take places ++ List.replicate (places - d.digits.length) Digit.zero,
      if fraction.isEmpty then l.noFraction else fraction, none⟩

/-- The scientific numeral of a decimal: one digit, the others after the point, the exponent. -/
def scientific (negative : Bool) (d : Scientific) : Numeral :=
  ⟨negative, d.digits.take 1, d.digits.drop 1, some (.ofInt d.exponent)⟩

/-- The numeral of a decimal. -/
def Layout.numeral (l : Layout) (negative : Bool) (d : Scientific) : Numeral :=
  if l.isPositional d.exponent then l.positional negative d else scientific negative d

/-- The numeral of a finite float, with the fewest digits that read back. -/
def Layout.ofFloat? (l : Layout) (x : Float) : Option Numeral :=
  match kindOfBits x.toBits.toNat with
  | .nan | .infinite _ => none
  | .zero negative => some (l.zero negative)
  | .finite negative size => some (l.numeral negative (size.shortest l.tie).toScientific)

end WorkLedger.Decimal
