/-!
# Hexadecimal text

Bytes are written as two lower-case digits each. Reading accepts either case, and refuses an odd
number of characters and any character that is not a digit.
-/

namespace WorkLedger.Hex

/-- The lower-case digit of a number below sixteen. -/
def digit (n : Fin 16) : Char :=
  if n.val < 10 then Char.ofNat (48 + n.val) else Char.ofNat (87 + n.val)

/-- The digit of the last four bits of a number. -/
def lastDigit (n : Nat) : Char := digit (Fin.ofNat 16 n)

/-- The number that a digit of either case stands for. -/
def value? (c : Char) : Option Nat :=
  if '0' ≤ c ∧ c ≤ '9' then some (c.toNat - 48)
  else if 'a' ≤ c ∧ c ≤ 'f' then some (c.toNat - 87)
  else if 'A' ≤ c ∧ c ≤ 'F' then some (c.toNat - 55)
  else none

/-- The digits of a byte string. -/
def chars : List UInt8 → List Char
  | [] => []
  | b :: rest =>
    lastDigit (b.toNat / 16) :: lastDigit b.toNat :: chars rest

/-- The bytes that a list of digits stands for. -/
def bytes? : List Char → Option (List UInt8)
  | [] => some []
  | [_] => none
  | high :: low :: rest =>
    match value? high, value? low, bytes? rest with
    | some h, some l, some bytes => some (UInt8.ofNat (h * 16 + l) :: bytes)
    | _, _, _ => none

/-- A byte string in lower-case hexadecimal. -/
def encode (bytes : List UInt8) : String := String.ofList (chars bytes)

/-- The bytes of a hexadecimal text, if it is one. -/
def decode? (text : String) : Option (List UInt8) := bytes? text.toList

@[simp] theorem value?_digit (n : Fin 16) : value? (digit n) = some n.val := by
  revert n; decide

@[simp] theorem bytes?_chars (bytes : List UInt8) : bytes? (chars bytes) = some bytes := by
  induction bytes with
  | nil => rfl
  | cons b rest ih =>
    have hb : b.toNat < 256 := b.toNat_lt
    have hsplit : b.toNat / 16 % 16 * 16 + b.toNat % 16 = b.toNat := by omega
    simp [chars, bytes?, lastDigit, ih, Fin.ofNat, hsplit]

/-- What is written reads back. -/
@[simp] theorem decode?_encode (bytes : List UInt8) : decode? (encode bytes) = some bytes := by
  simp [decode?, encode]

@[simp] theorem length_chars (bytes : List UInt8) : (chars bytes).length = 2 * bytes.length := by
  induction bytes with
  | nil => rfl
  | cons b rest ih => simp [chars, ih]; omega

end WorkLedger.Hex
