import WorkLedger.Amount
import WorkLedger.Digest.Sha256
import WorkLedger.OutPoint

/-!
# Transactions

A transaction spends earlier outputs and creates new ones. The first transaction of a block, its
coinbase, creates the reward out of nothing: its single input is unsigned and points at its own
output.

A transaction is hashed twice: into its id, together with the index of its block, and into the hash
of the block. `idChars` and `payloadChars` are the two texts.
-/

namespace WorkLedger

/-- An input: the output it spends, and the signature that allows it. Who owned the output and how
much it held is only known once the input has been resolved. -/
structure TxIn where
  point : OutPoint
  signature : String
  address : Option String
  amount : Option Float

/-- An output: an amount paid to an address. -/
structure TxOut where
  address : String
  amount : Float

/-- A transaction. -/
structure Transaction where
  id : String
  ins : List TxIn
  outs : List TxOut

/-- An input that has not been resolved. -/
def TxIn.unresolved (point : OutPoint) (signature : String) : TxIn := ⟨point, signature, none, none⟩

/-- An output, written for hashing. -/
def TxOut.chars (o : TxOut) : List Char := o.address.toList ++ ':' :: Amount.chars o.amount

namespace Transaction

/-- What a coinbase creates. -/
def reward : Float := 57

/-- The text that the id of a transaction in a block is the digest of. -/
def idChars (tx : Transaction) (block : UInt64) : List Char :=
  Decimal.natChars block.toNat ++ (tx.ins.flatMap (fun i => '|' :: i.point.chars)
    ++ tx.outs.flatMap (fun o => '|' :: o.chars))

/-- The id of a transaction in a block. -/
def idIn (tx : Transaction) (block : UInt64) : String :=
  Sha256.hexOfText (String.ofList (tx.idChars block))

/-- The transaction with the id that it has in a block. -/
def withIdIn (tx : Transaction) (block : UInt64) : Transaction := { tx with id := tx.idIn block }

/-- What a transaction contributes to the hash of its block. -/
def payloadChars (tx : Transaction) : List Char :=
  '[' :: (tx.id.toList
    ++ (tx.ins.flatMap (fun i => '|' :: (i.point.chars ++ ':' :: i.signature.toList))
      ++ (tx.outs.flatMap (fun o => '|' :: o.chars) ++ [']'])))

/-- The transaction that pays the reward of a block. -/
def coinbase (block : UInt64) (address : String) : Transaction :=
  withIdIn ⟨"", [.unresolved ⟨block, 0, 0⟩ ""], [⟨address, reward⟩]⟩ block

/-- Whether a transaction has the form of a coinbase: one output and one unsigned input. -/
def isCoinbase (tx : Transaction) : Bool :=
  match tx.ins, tx.outs with
  | [i], [_] => i.signature.isEmpty
  | _, _ => false

@[simp] theorem withIdIn_ins (tx : Transaction) (block : UInt64) :
    (tx.withIdIn block).ins = tx.ins := rfl

@[simp] theorem withIdIn_outs (tx : Transaction) (block : UInt64) :
    (tx.withIdIn block).outs = tx.outs := rfl

@[simp] theorem isCoinbase_withIdIn (tx : Transaction) (block : UInt64) :
    (tx.withIdIn block).isCoinbase = tx.isCoinbase := rfl

@[simp] theorem isCoinbase_coinbase (block : UInt64) (address : String) :
    (coinbase block address).isCoinbase = true := rfl

end Transaction

end WorkLedger
