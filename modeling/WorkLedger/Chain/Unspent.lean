import WorkLedger.Chain.Basic

/-!
# Unspent outputs

The outputs that no later transaction has spent are found by going through the chain: every output
is put into a list that is ordered by position, and every input takes the output it points at out of
it. A coinbase spends nothing.
-/

namespace WorkLedger

/-- An output that has not been spent. -/
structure UnspentOutput where
  point : OutPoint
  address : String
  amount : Float

namespace UnspentOutput

/-- Puts an output at its place in an ordered list. Another one at the same position gives way. -/
def insert (u : UnspentOutput) : List UnspentOutput → List UnspentOutput
  | [] => [u]
  | v :: rest =>
    match compare u.point v.point with
    | .lt => u :: v :: rest
    | .eq => u :: rest
    | .gt => v :: insert u rest

/-- Takes the output at a position out of a list. -/
def erase (point : OutPoint) (us : List UnspentOutput) : List UnspentOutput :=
  us.filter fun u => u.point != point

/-- An unspent output as a JSON value. -/
def toJson (u : UnspentOutput) : Json :=
  .object [("blockIndex", .nat u.point.block.toNat), ("txIndex", .nat u.point.tx.toNat),
    ("txOutIndex", .nat u.point.out.toNat), ("address", .string u.address),
    ("amount", .amount u.amount)]

/-- An unspent output out of a JSON value. -/
def decoder : Decoder UnspentOutput :=
  (Record.ofConstructor (fun block tx out => UnspentOutput.mk ⟨block, tx, out⟩)
    |>.required "blockIndex" Decoder.word64
    |>.required "txIndex" Decoder.word64
    |>.required "txOutIndex" Decoder.word64
    |>.required "address" Decoder.text
    |>.required "amount" Decoder.amount).decoder

end UnspentOutput

namespace Transaction

/-- The outputs of a transaction at a position that pay to an address, or all if the address is
empty. -/
def createdFor (tx : Transaction) (block : UInt64) (position : Nat) (address : String) :
    List UnspentOutput :=
  tx.outs.zipIdx.filterMap fun (o, n) =>
    if address.isEmpty || o.address == address then
      some ⟨⟨block, UInt64.ofNat position, UInt64.ofNat n⟩, o.address, o.amount⟩
    else none

/-- The positions of the outputs that a transaction spends. -/
def spent (tx : Transaction) : List OutPoint :=
  if tx.isCoinbase then [] else tx.ins.map TxIn.point

/-- Goes through one transaction. -/
def applyTo (tx : Transaction) (block : UInt64) (position : Nat) (address : String)
    (us : List UnspentOutput) : List UnspentOutput :=
  let grown := (tx.createdFor block position address).foldl (fun us u => u.insert us) us
  tx.spent.foldl (fun us p => UnspentOutput.erase p us) grown

end Transaction

/-- Goes through the transactions of one block. -/
def Block.applyTo (b : Block) (address : String) (us : List UnspentOutput) : List UnspentOutput :=
  b.transactions.zipIdx.foldl (fun us (tx, n) => tx.applyTo b.index n address us) us

/-- The unspent outputs that pay to an address, or all if the address is empty, by position. -/
def Chain.unspent (c : Chain) (address : String) : List UnspentOutput :=
  c.blocks.foldl (fun us b => b.applyTo address us) []

end WorkLedger
