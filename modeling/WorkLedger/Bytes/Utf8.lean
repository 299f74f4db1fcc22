/-!
# UTF-8

A byte string is taken apart into the characters that it spells. A byte that belongs to no character
stands for itself, so a byte string is a text when it has no such byte. Every character has one
spelling, the shortest.
-/

namespace WorkLedger.Utf8

/-- The number that `count` bytes of six bits each add to a number, if there are as many. -/
def follow? : Nat → Nat → List UInt8 → Option Nat
  | 0, n, _ => some n
  | _ + 1, _, [] => none
  | count + 1, n, b :: rest =>
    if 0x80 ≤ b ∧ b < 0xC0 then follow? count (n * 64 + (b.toNat - 0x80)) rest else none

/-- What the first byte of a character says: how many bytes follow it, its own bits, and the least
number that needs so many bytes. -/
def lead? (b : UInt8) : Option (Nat × Nat × Nat) :=
  let n := b.toNat
  if n < 0x80 then some (0, n, 0)
  else if n < 0xC0 then none
  else if n < 0xE0 then some (1, n - 0xC0, 0x80)
  else if n < 0xF0 then some (2, n - 0xE0, 0x800)
  else if n < 0xF8 then some (3, n - 0xF0, 0x10000)
  else none

/-- The character at the front of a byte string, and the number of bytes after its first one. -/
def front? : List UInt8 → Option (Char × Nat)
  | [] => none
  | b :: rest => do
    let (count, bits, least) ← lead? b
    let n ← follow? count bits rest
    if least ≤ n ∧ n.isValidChar then return (Char.ofNat n, count) else none

/-- The characters of a byte string, with `none` for a byte that belongs to none. -/
def chars (bytes : List UInt8) : List (Option Char) :=
  match bytes with
  | [] => []
  | b :: rest =>
    match front? (b :: rest) with
    | some (c, count) => some c :: chars (rest.drop count)
    | none => none :: chars rest
termination_by bytes.length

/-- The text of a byte string, if it is one. -/
def text? (bytes : List UInt8) : Option String :=
  ((chars bytes).mapM id).map String.ofList

end WorkLedger.Utf8
