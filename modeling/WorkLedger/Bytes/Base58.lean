import WorkLedger.Bytes.Radix
import WorkLedger.Bytes.BigEndian

/-!
# Base 58 text

Bytes as a number in base 58, in an alphabet without the look-alikes `0`, `O`, `I` and `l`. A number
does not show the zero bytes it starts with, so each of them is written as one `1`.
-/

namespace WorkLedger.Base58

/-- The fifty-eight digits, in order. -/
def alphabet : List Char :=
  "123456789ABCDEFGHJKLMNPQRSTUVWXYZabcdefghijkmnopqrstuvwxyz".toList

/-- The character of one digit. -/
def digit (n : Fin 58) : Char := alphabet.getD n.val '1'

/-- A byte string in base 58. -/
def encode (bytes : List UInt8) : String :=
  let zeros := bytes.takeWhile (· == 0)
  let digits := Radix.digits 58 (by decide) (BigEndian.toNat bytes)
  String.ofList (zeros.map (fun _ => '1') ++ digits.map digit)

end WorkLedger.Base58
