import WorkLedger.Bytes.Hex
import WorkLedger.Bytes.Utf8
import WorkLedger.Decimal.Numeral

/-!
# Request targets

The path of a request is a list of segments between slashes. In a segment, a percent sign and two
hexadecimal digits stand for a byte; a percent sign without them stands for itself. What follows a
question mark does not matter.
-/

namespace WorkLedger.Http

/-- The part of a target before its query. -/
def pathChars (target : String) : List Char :=
  target.toList.takeWhile fun c => c != '?' && c != '#'

/-- The pieces of a list between the slashes in it. -/
def splitSlashes : List Char → List (List Char)
  | [] => [[]]
  | '/' :: rest => [] :: splitSlashes rest
  | c :: rest =>
    match splitSlashes rest with
    | [] => [[c]]
    | piece :: pieces => (c :: piece) :: pieces

/-- The segments of a path, as they are written. A path that does not start with a slash has none. -/
def segments (target : String) : List String :=
  match pathChars target with
  | '/' :: rest => (splitSlashes rest).map String.ofList
  | _ => []

/-- The bytes that a segment stands for. -/
def percentBytes : List Char → List UInt8
  | [] => []
  | '%' :: high :: low :: rest =>
    match Hex.bytes? [high, low] with
    | some bytes => bytes ++ percentBytes rest
    | none => UInt8.ofNat '%'.toNat :: percentBytes (high :: low :: rest)
  | c :: rest => (String.singleton c).toByteArray.data.toList ++ percentBytes rest

/-- The text that a segment stands for, if it is one. -/
def decodeSegment? (segment : String) : Option String := Utf8.text? (percentBytes segment.toList)

/-- The number of a list of decimal digits. -/
def digitsValue? (cs : List Char) : Option Nat :=
  if cs.isEmpty then none else (cs.mapM Digit.ofChar?).map Radix.value

/-- The word of 64 bits that a text writes in decimal; a plus sign may stand before it. -/
def word64? (text : String) : Option UInt64 :=
  let digits :=
    match text.toList with
    | '+' :: rest => rest
    | cs => cs
  match digitsValue? digits with
  | some n => if n < UInt64.size then some (UInt64.ofNat n) else none
  | none => none

end WorkLedger.Http
