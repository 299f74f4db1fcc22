import WorkLedger.Block.Basic
import WorkLedger.Transaction.Json

/-!
# Blocks in JSON
-/

namespace WorkLedger.Block

/-- A block as a JSON value. -/
def toJson (b : Block) : Json :=
  .object [("index", .nat b.index.toNat), ("previousHash", .string b.previousHash),
    ("hash", .string b.hash), ("timestamp", .nat b.timestamp.toNat),
    ("difficulty", .nat b.difficulty.toNat), ("nonce", .nat b.nonce.toNat),
    ("minerId", .string b.minerId), ("transactions", .array (b.transactions.map Transaction.toJson))]

/-- A block out of a JSON value. -/
def decoder : Decoder Block :=
  (Record.ofConstructor Block.mk
    |>.required "index" Decoder.word64
    |>.required "previousHash" Decoder.text
    |>.required "hash" Decoder.text
    |>.required "timestamp" Decoder.word64
    |>.required "difficulty" Decoder.word32
    |>.required "nonce" Decoder.word64
    |>.required "minerId" Decoder.text
    |>.required "transactions" (Decoder.list Transaction.decoder)).decoder

end WorkLedger.Block
