import WorkLedger.Bytes.Utf8
import WorkLedger.Json.Parser

/-!
# Reading JSON from bytes

Bytes that are no text may still be JSON: a string that nobody reads need not be a text. A stray
byte reads like two first halves of a surrogate pair in a row. These never find a partner, so a
string with a stray byte is not a text, and outside of a string neither is JSON.
-/

namespace WorkLedger.Json

/-- What a stray byte reads like. -/
def strayChars : List Char := ['\\', 'u', 'd', '8', '0', '0', '\\', 'u', 'd', '8', '0', '0']

/-- The characters that bytes read like. Right after a backslash that opens an escape, a stray byte
reads like a character that is no escape. -/
def spell : Bool → List (Option Char) → List Char
  | _, [] => []
  | escaping, some c :: rest => c :: spell (c == '\\' && !escaping) rest
  | true, none :: rest => '\x00' :: spell false rest
  | false, none :: rest => strayChars ++ spell false rest

/-- Reads a byte string. -/
def ofBytes (bytes : List UInt8) : Document := ofChars (spell false (Utf8.chars bytes))

end WorkLedger.Json
