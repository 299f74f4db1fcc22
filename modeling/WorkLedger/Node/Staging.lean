import WorkLedger.Node.Basic

/-!
# Staged replacements

A replacement takes effect between two searches, or at once if the node does not mine. The store is
written anew if the chain came out with another length or another last block, also when only a part
of the replacement was taken.
-/

namespace WorkLedger

/-- The number of blocks and the hash of the last one. -/
def Chain.mark (c : Chain) : Nat × Option String := (c.blocks.length, c.tail?.map Block.hash)

namespace Node

/-- Takes over the chain that a replacement led to, and stores it if it is another one. -/
def adopt (n : Node) (chain : Chain) : Node :=
  { n with
    chain
    store := if n.chain.mark = chain.mark then n.store else (n.store.refill chain.blocks).store }

/-- Applies the staged replacement, if there is one, and announces the chain if it went well. -/
def settle (n : Node) : Node :=
  match n.staged with
  | none => n
  | some replacement =>
    let outcome := n.chain.replace replacement
    let adopted := { n with staged := none }.adopt outcome.chain
    match outcome.result with
    | .ok _ => adopted.announce
    | .error _ => adopted

/-- Puts a replacement aside in place of an earlier one. The search that it waits for is cancelled;
if there is none, the replacement is applied. -/
def stage (n : Node) (replacement : Replacement) : Node :=
  let waiting := { n with staged := some replacement }
  if n.isMining then { waiting with miner := n.miner.cancel } else waiting.settle

end Node

end WorkLedger
