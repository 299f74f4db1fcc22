import WorkLedger.Bytes.Hex
import WorkLedger.Json.Basic

/-!
# Reading JSON

The reader takes a value from the front of a list of characters and returns it with the characters
after it. Where the text is no JSON it returns a broken leaf and nothing after it. A string may hold
surrogates that have no partner; it is JSON then, but not a text.
-/

namespace WorkLedger.Json

/-- The blanks of JSON. -/
def isBlank (c : Char) : Bool := c == ' ' || c == '\t' || c == '\n' || c == '\r'

/-- The characters from the first one that is not blank. -/
def skipBlank (cs : List Char) : List Char := cs.dropWhile isBlank

/-- The digits at the front of a text, and what follows them. -/
def takeDigits : List Char → List Digit × List Char
  | [] => ([], [])
  | c :: rest =>
    match Digit.ofChar? c with
    | some d => let (ds, after) := takeDigits rest; (d :: ds, after)
    | none => ([], c :: rest)

/-- The digits after a point, if there is one: at least one. -/
def takeFraction? : List Char → Option (List Digit × List Char)
  | '.' :: rest =>
    match takeDigits rest with
    | ([], _) => none
    | found => some found
  | cs => some ([], cs)

/-- The sign and the digits of an exponent: at least one digit. -/
def takeSigned? (cs : List Char) : Option (Exponent × List Char) :=
  let (negative, rest) :=
    match cs with
    | '-' :: rest => (true, rest)
    | '+' :: rest => (false, rest)
    | rest => (false, rest)
  match takeDigits rest with
  | ([], _) => none
  | (ds, after) => some (⟨negative, ds⟩, after)

/-- The exponent at the front of a text, if there is one. -/
def takeExponent? : List Char → Option (Option Exponent × List Char)
  | 'e' :: rest | 'E' :: rest => (takeSigned? rest).map fun (e, after) => (some e, after)
  | cs => some (none, cs)

/-- Whether digits may stand before the point: there are some, and none is a needless zero. -/
def isWhole : List Digit → Bool
  | [] => false
  | [_] => true
  | d :: _ => d != Digit.zero

/-- The numeral at the front of a text, and what follows it. -/
def takeNumeral? (cs : List Char) : Option (Numeral × List Char) :=
  let (negative, unsigned) :=
    match cs with
    | '-' :: rest => (true, rest)
    | rest => (false, rest)
  let (whole, afterWhole) := takeDigits unsigned
  if isWhole whole then
    (takeFraction? afterWhole).bind fun (fraction, afterFraction) =>
      (takeExponent? afterFraction).map fun (exponent, after) =>
        (⟨negative, whole, fraction, exponent⟩, after)
  else none

/-- A character of a string, or the 16-bit code of an escape. -/
abbrev StringUnit := Char ⊕ Nat

/-- The character of a short escape. -/
def unescape? (letter : Char) : Option Char :=
  if letter = '"' then some '"'
  else if letter = '\\' then some '\\'
  else if letter = '/' then some '/'
  else if letter = 'b' then some (Char.ofNat 8)
  else if letter = 'f' then some (Char.ofNat 12)
  else if letter = 'n' then some '\n'
  else if letter = 'r' then some '\r'
  else if letter = 't' then some '\t'
  else none

/-- The code of four hexadecimal digits. -/
def code? (a b c d : Char) : Option Nat := do
  let a ← Hex.value? a
  let b ← Hex.value? b
  let c ← Hex.value? c
  let d ← Hex.value? d
  return ((a * 16 + b) * 16 + c) * 16 + d

/-- The units of a string after its opening quote, and what follows its closing one. -/
def takeUnits? : List Char → Option (List StringUnit × List Char)
  | [] => none
  | '"' :: rest => some ([], rest)
  | '\\' :: 'u' :: a :: b :: c :: d :: rest =>
    match code? a b c d with
    | some n => (takeUnits? rest).map fun (units, after) => (.inr n :: units, after)
    | none => none
  | '\\' :: letter :: rest =>
    match unescape? letter with
    | some c => (takeUnits? rest).map fun (units, after) => (.inl c :: units, after)
    | none => none
  | c :: rest =>
    if c.toNat < 0x20 ∨ c = '\\' then none
    else (takeUnits? rest).map fun (units, after) => (.inl c :: units, after)

/-- Whether a code is the first half of a pair. -/
def isHighSurrogate (n : Nat) : Bool := 0xD800 ≤ n && n ≤ 0xDBFF

/-- Whether a code is the second half of a pair. -/
def isLowSurrogate (n : Nat) : Bool := 0xDC00 ≤ n && n ≤ 0xDFFF

/-- The characters that units stand for: two surrogates in their order are one character, and one
alone is none. -/
def joinUnits? : List StringUnit → Option (List Char)
  | [] => some []
  | .inl c :: rest => (joinUnits? rest).map (c :: ·)
  | .inr high :: .inr low :: rest =>
    if isHighSurrogate high then
      if isLowSurrogate low then
        (joinUnits? rest).map
          (Char.ofNat (0x10000 + (high - 0xD800) * 0x400 + (low - 0xDC00)) :: ·)
      else none
    else if isLowSurrogate high then none
    else (joinUnits? (.inr low :: rest)).map (Char.ofNat high :: ·)
  | .inr n :: rest =>
    if isHighSurrogate n || isLowSurrogate n then none
    else (joinUnits? rest).map (Char.ofNat n :: ·)

mutual

/-- The value at the front of a text, and what follows it. -/
def takeValue : Nat → List Char → Json × List Char
  | 0, _ => (broken .grammar, [])
  | fuel + 1, cs =>
    match skipBlank cs with
    | 'n' :: 'u' :: 'l' :: 'l' :: rest => (null, rest)
    | 't' :: 'r' :: 'u' :: 'e' :: rest => (bool true, rest)
    | 'f' :: 'a' :: 'l' :: 's' :: 'e' :: rest => (bool false, rest)
    | '"' :: rest =>
      match takeUnits? rest with
      | none => (broken .grammar, [])
      | some (units, after) =>
        match joinUnits? units with
        | some s => (string (String.ofList s), after)
        | none => (broken .surrogate, after)
    | '[' :: rest =>
      match skipBlank rest with
      | ']' :: after => (array [], after)
      | rest => let (items, after) := takeItems fuel rest; (array items, after)
    | '\x7b' :: rest =>
      match skipBlank rest with
      | '\x7d' :: after => (object [], after)
      | rest => let (members, after) := takeMembers fuel rest; (object members, after)
    | rest =>
      match takeNumeral? rest with
      | some (n, after) => (number n, after)
      | none => (broken .grammar, [])

/-- The items of an array up to its closing bracket, and what follows it. -/
def takeItems : Nat → List Char → List Json × List Char
  | 0, _ => ([broken .grammar], [])
  | fuel + 1, cs =>
    let (j, rest) := takeValue fuel cs
    match skipBlank rest with
    | ',' :: rest => let (items, after) := takeItems fuel rest; (j :: items, after)
    | ']' :: after => ([j], after)
    | _ => ([j, broken .grammar], [])

/-- The members of an object up to its closing brace, and what follows it. -/
def takeMembers : Nat → List Char → List (String × Json) × List Char
  | 0, _ => ([("", broken .grammar)], [])
  | fuel + 1, cs =>
    match skipBlank cs with
    | '"' :: rest =>
      match takeUnits? rest with
      | none => ([("", broken .grammar)], [])
      | some (units, rest) =>
        let (name, flaws) :=
          match joinUnits? units with
          | some s => (String.ofList s, [])
          | none => ("", [("", broken .name)])
        match skipBlank rest with
        | ':' :: rest =>
          let (j, rest) := takeValue fuel rest
          match skipBlank rest with
          | ',' :: rest =>
            let (members, after) := takeMembers fuel rest
            (flaws ++ (name, j) :: members, after)
          | '\x7d' :: after => (flaws ++ [(name, j)], after)
          | _ => (flaws ++ [(name, j), ("", broken .grammar)], [])
        | _ => (flaws ++ [(name, broken .grammar)], [])
    | _ => ([("", broken .grammar)], [])

end

/-- A text as a document: its first value, and whether nothing but blanks follows it. -/
structure Document where
  root : Json
  complete : Bool

/-- Reads a list of characters. A value that opens another one is at least one character long, so
twice the length is more than enough for the depth of the recursion. -/
def ofChars (cs : List Char) : Document :=
  let (root, rest) := takeValue (2 * cs.length + 2) cs
  ⟨root, (skipBlank rest).isEmpty⟩

/-- Reads a text. -/
def ofText (text : String) : Document := ofChars text.toList

end WorkLedger.Json
