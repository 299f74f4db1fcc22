import WorkLedger.Chain.Basic

/-!
# Accounts

The account of an address lists what it received and what it spent, transaction by transaction. To
know who spends, the inputs of a block are resolved to the outputs they point at; an input that
points outside the chain means that the chain is corrupt.
-/

namespace WorkLedger

/-- An input that points at no output of the chain, in a block with an index. -/
structure DanglingInput where
  point : OutPoint
  block : UInt64
  deriving DecidableEq, Repr

/-- The text of a dangling input. -/
def DanglingInput.message (d : DanglingInput) : String :=
  "input " ++ d.point.text ++ " of block " ++ Decimal.natText d.block.toNat
    ++ " points outside the chain"

/-- One line of an account: positive for what was received, negative for what was spent. -/
structure AccountEntry where
  txid : String
  block : UInt64
  timestamp : UInt64
  amount : Float

namespace AccountEntry

/-- A line of an account as a JSON value. -/
def toJson (e : AccountEntry) : Json :=
  .object [("txid", .string e.txid), ("blockIndex", .nat e.block.toNat),
    ("timestamp", .nat e.timestamp.toNat), ("amount", .amount e.amount)]

/-- A line of an account out of a JSON value. -/
def decoder : Decoder AccountEntry :=
  (Record.ofConstructor AccountEntry.mk
    |>.required "txid" Decoder.text
    |>.required "blockIndex" Decoder.word64
    |>.required "timestamp" Decoder.word64
    |>.required "amount" Decoder.amount).decoder

end AccountEntry

namespace Chain

/-- The output at a position. -/
def output? (c : Chain) (p : OutPoint) : Option TxOut :=
  (c.get? p.block).bind fun b =>
    b.transactions[p.tx.toNat]?.bind fun tx => tx.outs[p.out.toNat]?

/-- An input of the block with an index, with the address and the amount of the output it points at. -/
def resolveInput (c : Chain) (index : UInt64) (i : TxIn) : Except DanglingInput TxIn :=
  match c.output? i.point with
  | some o => .ok { i with address := some o.address, amount := some o.amount }
  | none => .error ⟨i.point, index⟩

/-- A transaction of the block with an index, with its inputs resolved. -/
def resolveTransaction (c : Chain) (index : UInt64) (tx : Transaction) :
    Except DanglingInput Transaction :=
  (tx.ins.mapM (c.resolveInput index)).map fun ins => { tx with ins }

/-- The block with an index, with the inputs of its transactions resolved, if there is one. -/
def details (c : Chain) (index : UInt64) : Except DanglingInput (Option Block) :=
  match c.get? index with
  | none => .ok none
  | some b =>
    (b.transactions.mapM (c.resolveTransaction index)).map fun transactions =>
      some { b with transactions }

end Chain

/-- What a transaction pays to an address, if it has an output for it. -/
def Transaction.credit? (tx : Transaction) (address : String) : Option Float :=
  match (tx.outs.filter fun o => o.address == address).map TxOut.amount with
  | [] => none
  | a :: rest => some (rest.foldl (· + ·) a)

/-- What the resolved inputs of a transaction add up to. -/
def Transaction.inputTotal (tx : Transaction) : Float := Amount.sum (tx.ins.filterMap TxIn.amount)

/-- Whether a resolved transaction spends outputs of an address: it is no coinbase, and its first
input belongs to the address. -/
def Transaction.isSpentBy (tx : Transaction) (address : String) : Bool :=
  !tx.isCoinbase && (tx.ins.head?.bind TxIn.address == some address)

/-- What a resolved transaction changes in the account of an address, if it touches it. -/
def Transaction.change? (tx : Transaction) (address : String) : Option Float :=
  if tx.isSpentBy address then some (-(tx.inputTotal - (tx.credit? address).getD 0))
  else tx.credit? address

/-- The lines of a resolved block in the account of an address. -/
def Block.entriesFor (b : Block) (address : String) : List AccountEntry :=
  b.transactions.filterMap fun tx =>
    (tx.change? address).map fun amount => ⟨tx.id, b.index, b.timestamp, amount⟩

namespace Chain

/-- The account of an address, in the order of the chain. -/
def account (c : Chain) (address : String) : Except DanglingInput (List AccountEntry) :=
  (c.blocks.mapM fun b => c.details b.index).map fun found =>
    (found.filterMap id).flatMap fun b => b.entriesFor address

/-- The sum of an account. -/
def balance (c : Chain) (address : String) : Except DanglingInput Float :=
  (c.account address).map fun entries => Amount.sum (entries.map AccountEntry.amount)

/-- The position of the first transaction with an id: the index of its block, and its place in it. -/
def find? (c : Chain) (txid : String) : Option (UInt64 × Nat) :=
  c.blocks.findSome? fun b =>
    (b.transactions.findIdx? fun tx => tx.id == txid).map fun n => (b.index, n)

end Chain

end WorkLedger
