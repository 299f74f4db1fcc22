import WorkLedger.Transaction.Basic

/-!
# Transactions in JSON

An input shows the resolved address and amount only if it has them; nothing else is left out.
-/

namespace WorkLedger

/-- An input as a JSON value. -/
def TxIn.toJson (i : TxIn) : Json :=
  .present [("blockIndex", some (.nat i.point.block.toNat)),
    ("txIndex", some (.nat i.point.tx.toNat)), ("txOutIndex", some (.nat i.point.out.toNat)),
    ("signature", some (.string i.signature)), ("address", i.address.map .string),
    ("amount", i.amount.map .amount)]

/-- An input out of a JSON value. -/
def TxIn.decoder : Decoder TxIn :=
  (Record.ofConstructor (fun block tx out => TxIn.mk ⟨block, tx, out⟩)
    |>.required "blockIndex" Decoder.word64
    |>.required "txIndex" Decoder.word64
    |>.required "txOutIndex" Decoder.word64
    |>.required "signature" Decoder.text
    |>.optional "address" Decoder.text
    |>.optional "amount" Decoder.amount).decoder

/-- An output as a JSON value. -/
def TxOut.toJson (o : TxOut) : Json :=
  .object [("address", .string o.address), ("amount", .amount o.amount)]

/-- An output out of a JSON value. -/
def TxOut.decoder : Decoder TxOut :=
  (Record.ofConstructor TxOut.mk
    |>.required "address" Decoder.text
    |>.required "amount" Decoder.amount).decoder

/-- A transaction as a JSON value. -/
def Transaction.toJson (tx : Transaction) : Json :=
  .object [("id", .string tx.id), ("txIns", .array (tx.ins.map TxIn.toJson)),
    ("txOuts", .array (tx.outs.map TxOut.toJson))]

/-- A transaction out of a JSON value. -/
def Transaction.decoder : Decoder Transaction :=
  (Record.ofConstructor Transaction.mk
    |>.required "id" Decoder.text
    |>.required "txIns" (Decoder.list TxIn.decoder)
    |>.required "txOuts" (Decoder.list TxOut.decoder)).decoder

end WorkLedger
