import WorkLedger.Decimal.Numeral
import WorkLedger.Json.Decoder

/-!
# Output points

An output is known by its position: the block, the transaction in the block, and the output in the
transaction. Points are ordered by position, block first.
-/

namespace WorkLedger

/-- The position of an output in the chain. -/
structure OutPoint where
  block : UInt64
  tx : UInt64
  out : UInt64
  deriving DecidableEq, Repr

namespace OutPoint

/-- The order of positions. -/
def compare (p q : OutPoint) : Ordering :=
  ((Ord.compare p.block q.block).then (Ord.compare p.tx q.tx)).then (Ord.compare p.out q.out)

instance : Ord OutPoint := ⟨OutPoint.compare⟩

/-- The characters of a point: its three numbers, separated by colons. -/
def chars (p : OutPoint) : List Char :=
  Decimal.natChars p.block.toNat ++ ':' :: (Decimal.natChars p.tx.toNat
    ++ ':' :: Decimal.natChars p.out.toNat)

/-- The text of a point. -/
def text (p : OutPoint) : String := String.ofList p.chars

/-- A point as a JSON value. -/
def toJson (p : OutPoint) : Json :=
  .object [("blockIndex", .nat p.block.toNat), ("txIndex", .nat p.tx.toNat),
    ("txOutIndex", .nat p.out.toNat)]

/-- A point out of a JSON value. -/
def decoder : Decoder OutPoint :=
  (Record.ofConstructor OutPoint.mk
    |>.required "blockIndex" Decoder.word64
    |>.required "txIndex" Decoder.word64
    |>.required "txOutIndex" Decoder.word64).decoder

end OutPoint

end WorkLedger
