import WorkLedger.Chain.Basic

/-!
# Waiting transactions

Transactions wait in a queue until a block takes all of them, behind the coinbase of that block. If
the block comes to nothing they go back to the front of the queue, in their order. Transactions in
the form of a coinbase are dropped on either way.
-/

namespace WorkLedger.Chain

/-- Adds a transaction to the queue. -/
def enqueue (c : Chain) (tx : Transaction) : Chain := { c with pending := c.pending ++ [tx] }

/-- The transactions of a list that do not have the form of a coinbase. -/
def payments (txs : List Transaction) : List Transaction :=
  txs.filter fun tx => !tx.isCoinbase

/-- The transactions of the next block, which has the given index and pays its reward to the given
address. -/
def candidateTransactions (c : Chain) (index : UInt64) (address : String) : List Transaction :=
  Transaction.coinbase index address :: (payments c.pending).map fun tx => tx.withIdIn index

/-- Takes all transactions out of the queue. -/
def drained (c : Chain) : Chain := { c with pending := [] }

/-- Puts the payments of an abandoned block back to the front of the queue. -/
def requeue (c : Chain) (txs : List Transaction) : Chain :=
  { c with pending := payments txs ++ c.pending }

@[simp] theorem blocks_enqueue (c : Chain) (tx : Transaction) : (c.enqueue tx).blocks = c.blocks :=
  rfl

@[simp] theorem blocks_drained (c : Chain) : c.drained.blocks = c.blocks := rfl

@[simp] theorem blocks_requeue (c : Chain) (txs : List Transaction) :
    (c.requeue txs).blocks = c.blocks := rfl

end WorkLedger.Chain
