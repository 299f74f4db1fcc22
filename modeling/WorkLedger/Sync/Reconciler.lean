import WorkLedger.Chain.Replacement
import WorkLedger.Chain.Weight
import WorkLedger.Sync.Frame

/-!
# Reconciling with a peer's chain

A summary says whether the peer's chain is heavier. If it is, its blocks are asked for from the
local tail on, and if they do not fit there, from one block further down each time, until they link
to a local block. Blocks that continue the local chain are appended at once. A candidate that
changes blocks becomes a replacement, which is applied later.
-/

namespace WorkLedger

/-- What to do about the summary of a peer's chain. -/
inductive SummaryAction where
  | ignore
  /-- Ask for the whole chain. -/
  | requestFull
  | requestRange (range : BlockRange)

/-- What came of a candidate. -/
inductive ReconcileOutcome where
  | discarded
  /-- Some blocks were appended. -/
  | extended (count : Nat)
  /-- Local blocks have to give way to others. -/
  | replace (replacement : Replacement)
  | requestRange (range : BlockRange)

/-- The policy of a node towards its peers' chains. -/
structure Reconciler where
  /-- Whether a chain with another first block may be asked for. -/
  allowReset : Bool

namespace Reconciler

/-- Compares the first block, the last block and the weight of a peer's chain with the local one. -/
def onSummary (policy : Reconciler) (c : Chain) (first tail : Block) (weight : UInt64) :
    SummaryAction :=
  match c.first?, c.tail? with
  | some localFirst, some localTail =>
    if localFirst.hash != first.hash then
      if policy.allowReset then .requestFull else .ignore
    else if weight ≤ c.weight then .ignore
    else .requestRange ⟨min (localTail.index + 1) tail.index, tail.index⟩
  | _, _ => .requestFull

/-- Whether all blocks of a candidate are in the chain already. -/
def isKnown (c : Chain) (candidate : List Block) : Bool :=
  candidate.all fun b => (c.get? b.index).any fun known => known.hash == b.hash

/-- Whether a block links to the block of the chain that has the index before it. -/
def linksInto (c : Chain) (b : Block) : Bool :=
  (c.get? (b.index - 1)).any fun anchor => anchor.hash == b.previousHash

/-- What a valid candidate leads to on a chain with a last block. `none` stands for appending it. -/
def placement (c : Chain) (tail first last : Block) (candidate : List Block) :
    Option ReconcileOutcome :=
  if isKnown c candidate then some .discarded
  else if first.index = 0 then some (.replace (.full candidate))
  else if first.index ≤ tail.index + 1 ∧ linksInto c first = false then
    some (.requestRange ⟨first.index - 1, last.index⟩)
  else if first.index ≤ tail.index then some (.replace (.splice first.index candidate))
  else if first.index = tail.index + 1 then none
  else some (.requestRange ⟨tail.index + 1, last.index⟩)

/-- Takes a candidate: what is to be done about it, and the chain, which is longer if it continues
the chain and the same in all other cases. The first block is not compared with the local one; that
is left to `onSummary`. -/
def reconcile (_policy : Reconciler) (c : Chain) (candidate : List Block) :
    ReconcileOutcome × Chain :=
  match candidate.head?, candidate.getLast? with
  | some first, some last =>
    if Block.isSequence candidate then
      match c.tail? with
      | none =>
        if first.index = 0 then (.replace (.full candidate), c)
        else (.requestRange ⟨0, last.index⟩, c)
      | some tail =>
        match placement c tail first last candidate with
        | some outcome => (outcome, c)
        | none => let x := c.extend candidate; (.extended x.taken, x.chain)
    else (.discarded, c)
  | _, _ => (.discarded, c)

end Reconciler

end WorkLedger
