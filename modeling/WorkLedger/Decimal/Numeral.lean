import WorkLedger.Bytes.Radix

/-!
# Decimal numerals

A numeral is a written number: a sign, digits before and after the point, and a power of ten. It is
kept as it is written, because the same number has many numerals and not all of them are accepted
everywhere: `1`, `1.0` and `1e0` are three of them.
-/

namespace WorkLedger

/-- A decimal digit. -/
abbrev Digit := Fin 10

namespace Digit

/-- The last digit of a number. -/
def last (n : Nat) : Digit := ⟨n % 10, Nat.mod_lt n (by decide)⟩

/-- The digit zero. -/
def zero : Digit := last 0

/-- The character of a digit. -/
def char (d : Digit) : Char := Char.ofNat (48 + d.val)

/-- The digit that a character stands for. -/
def ofChar? (c : Char) : Option Digit :=
  if '0' ≤ c ∧ c ≤ '9' then some (last (c.toNat - 48)) else none

@[simp] theorem ofChar?_char (d : Digit) : ofChar? d.char = some d := by
  revert d; decide

end Digit

namespace Decimal

/-- The digits of a natural number; zero has none. -/
def digits (n : Nat) : List Digit := Radix.digits 10 (by decide) n

/-- The digits of a natural number as it is written; zero has one digit. -/
def natDigits (n : Nat) : List Digit := if n = 0 then [Digit.zero] else digits n

/-- A natural number in decimal. -/
def natChars (n : Nat) : List Char := (natDigits n).map Digit.char

/-- The text of a natural number in decimal. -/
def natText (n : Nat) : String := String.ofList (natChars n)

/-- The text of a natural number, filled up with zeros to a width. -/
def paddedText (width n : Nat) : String :=
  let cs := natChars n
  String.ofList (List.replicate (width - cs.length) '0' ++ cs)

end Decimal

/-- The power of ten of a numeral. -/
structure Exponent where
  negative : Bool
  digits : List Digit
  deriving DecidableEq, Repr

/-- A written decimal number. -/
structure Numeral where
  negative : Bool
  /-- The digits before the point. -/
  whole : List Digit
  /-- The digits after the point; without any there is no point. -/
  fraction : List Digit
  exponent : Option Exponent
  deriving DecidableEq, Repr

namespace Exponent

/-- The exponent as it is written: its sign always, without the letter before it. -/
def chars (e : Exponent) : List Char :=
  (if e.negative then '-' else '+') :: e.digits.map Digit.char

/-- The number of an exponent. -/
def toInt (e : Exponent) : Int :=
  if e.negative then -(Radix.value e.digits : Int) else Radix.value e.digits

/-- The exponent of a number. -/
def ofInt (n : Int) : Exponent := ⟨n < 0, Decimal.natDigits n.natAbs⟩

end Exponent

namespace Numeral

/-- The numeral of a natural number. -/
def ofNat (n : Nat) : Numeral := ⟨false, Decimal.natDigits n, [], none⟩

/-- The numeral as it is written. -/
def chars (n : Numeral) : List Char :=
  (if n.negative then ['-'] else []) ++ n.whole.map Digit.char
    ++ (if n.fraction.isEmpty then [] else '.' :: n.fraction.map Digit.char)
    ++ (match n.exponent with | none => [] | some e => 'e' :: e.chars)

/-- The number of a numeral without sign, point and exponent. -/
def toNat? (n : Numeral) : Option Nat :=
  if n.negative = false ∧ n.fraction = [] ∧ n.exponent = none then some (Radix.value n.whole)
  else none

end Numeral

end WorkLedger
