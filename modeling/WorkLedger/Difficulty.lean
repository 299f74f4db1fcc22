import WorkLedger.Bytes.Hex

/-!
# Difficulty of a hash

A hash meets a difficulty when it starts with that many zero bits. The test looks at whole bytes
first and then at the high bits of the byte after them.
-/

namespace WorkLedger.Difficulty

/-- Whether a byte string starts with `d` zero bits. -/
def meets (hash : List UInt8) (d : UInt32) : Bool :=
  let wholeBytes := d.toNat / 8
  let bits := d.toNat % 8
  decide (wholeBytes ≤ hash.length)
    && (hash.take wholeBytes).all (· == 0)
    && (bits == 0 ||
      match hash[wholeBytes]? with
      | none => false
      | some byte => byte &&& (0xFF <<< UInt8.ofNat (8 - bits)) == 0)

/-- Whether a hexadecimal text stands for bytes that meet a difficulty; another text never does. -/
def metByHex (text : String) (d : UInt32) : Bool :=
  match Hex.decode? text with
  | some bytes => meets bytes d
  | none => false

end WorkLedger.Difficulty
