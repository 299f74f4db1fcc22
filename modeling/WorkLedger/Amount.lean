import WorkLedger.Decimal.Layout

/-!
# Amounts

Amounts of money are floats. They are written in two ways: in JSON, where very small and very large
ones take an exponent and a whole amount shows a point, and plainly, in hashed texts and messages,
where neither happens.
-/

namespace WorkLedger.Amount

/-- In JSON a point is always shown, and the leading digit is placed between `0.00001` and
`1000000000000000.0`; other amounts take an exponent. A tie goes to the even digit. -/
def jsonLayout : Decimal.Layout := ⟨some (-5), some 16, true, .toEven⟩

/-- Plainly an amount never takes an exponent, and a whole one has no point. A tie goes up. -/
def plainLayout : Decimal.Layout := ⟨none, none, false, .up⟩

/-- The numeral of an amount in JSON; only finite amounts have one. -/
def numeral? (x : Float) : Option Numeral := jsonLayout.ofFloat? x

/-- The characters of an amount written plainly. -/
def chars (x : Float) : List Char :=
  match plainLayout.ofFloat? x with
  | some n => n.chars
  | none => if x.isNaN then ['N', 'a', 'N'] else if x < 0 then ['-', 'i', 'n', 'f'] else ['i', 'n', 'f']

/-- An amount written plainly. -/
def text (x : Float) : String := String.ofList (chars x)

/-- The sum of a list of amounts from the left, which starts at negative zero, the neutral element
of addition. -/
def sum (xs : List Float) : Float := xs.foldl (· + ·) (-0.0)

end WorkLedger.Amount
