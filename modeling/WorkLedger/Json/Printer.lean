import WorkLedger.Bytes.Hex
import WorkLedger.Json.Basic

/-!
# Writing JSON

A document is written without any blanks, or with one member or item to a line and two blanks for
each level. In strings only the quote, the backslash and the control characters are escaped.
-/

namespace WorkLedger.Json

/-- The letter of the short escape of a character, if it has one. -/
def shortEscape? (c : Char) : Option Char :=
  if c = '"' then some '"'
  else if c = '\\' then some '\\'
  else if c = '\n' then some 'n'
  else if c = '\t' then some 't'
  else if c = '\r' then some 'r'
  else if c.toNat = 8 then some 'b'
  else if c.toNat = 12 then some 'f'
  else none

/-- One character inside a string. -/
def escape (c : Char) : List Char :=
  match shortEscape? c with
  | some letter => ['\\', letter]
  | none =>
    if c.toNat < 0x20 then
      ['\\', 'u', '0', '0', Hex.lastDigit (c.toNat / 16), Hex.lastDigit c.toNat]
    else [c]

/-- A string in quotes. -/
def quote (s : String) : List Char := '"' :: (s.toList.flatMap escape ++ ['"'])

/-- How deep the lines are indented; without a depth there are no lines. -/
abbrev Indent := Option Nat

/-- One level deeper. -/
def Indent.deeper (i : Indent) : Indent := i.map (· + 1)

/-- The start of a new line. -/
def Indent.newline : Indent → List Char
  | none => []
  | some depth => '\n' :: List.replicate (2 * depth) ' '

/-- What stands between a name and its value. -/
def Indent.colon : Indent → List Char
  | none => [':']
  | some _ => [':', ' ']

mutual

/-- The characters of a document. A broken part has no text of its own and is written as null. -/
def chars (i : Indent) : Json → List Char
  | null => ['n', 'u', 'l', 'l']
  | bool true => ['t', 'r', 'u', 'e']
  | bool false => ['f', 'a', 'l', 's', 'e']
  | number n => n.chars
  | string s => quote s
  | array [] => ['[', ']']
  | array (j :: rest) =>
    '[' :: (i.deeper.newline ++ (chars i.deeper j ++ (itemsChars i.deeper rest
      ++ (i.newline ++ [']']))))
  | object [] => ['\x7b', '\x7d']
  | object ((name, j) :: rest) =>
    '\x7b' :: (i.deeper.newline ++ (quote name ++ (i.deeper.colon ++ (chars i.deeper j
      ++ (membersChars i.deeper rest ++ (i.newline ++ ['\x7d']))))))
  | broken _ => ['n', 'u', 'l', 'l']

/-- The items after the first one. -/
def itemsChars (i : Indent) : List Json → List Char
  | [] => []
  | j :: rest => ',' :: (i.newline ++ (chars i j ++ itemsChars i rest))

/-- The members after the first one. -/
def membersChars (i : Indent) : List (String × Json) → List Char
  | [] => []
  | (name, j) :: rest =>
    ',' :: (i.newline ++ (quote name ++ (i.colon ++ (chars i j ++ membersChars i rest))))

end

/-- The text of a document without blanks. -/
def compact (j : Json) : String := String.ofList (j.chars none)

/-- The text of a document in lines. -/
def pretty (j : Json) : String := String.ofList (j.chars (some 0))

end WorkLedger.Json
