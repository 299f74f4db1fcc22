import WorkLedger.Chain.Basic

/-!
# Replacing blocks

A replacement swaps the whole chain for another one, or cuts it off at an index and appends other
blocks there. The whole chain is only swapped if every block of the other one is good; it is then
built anew, without another look at the links. A splice keeps what was appended before the first
block that is refused, and changes nothing if that is the first one.
-/

namespace WorkLedger

/-- A change to the blocks of a chain. -/
inductive Replacement where
  /-- The blocks of a whole chain. -/
  | full (blocks : List Block)
  /-- Blocks in place of those from an index on. -/
  | splice (start : UInt64) (blocks : List Block)

namespace Replacement

/-- The blocks that a replacement offers. -/
def blocks : Replacement → List Block
  | full bs => bs
  | splice _ bs => bs

/-- What came of a replacement: the chain, and how many of the offered blocks are in it now. -/
structure Outcome where
  chain : Chain
  result : Except ChainError Nat

/-- Appends a block, whatever it links to. -/
def appendUnlinked (c : Chain) (b : Block) : Except ChainError Chain :=
  if !b.hashMatches || !b.workDone then .error (.invalidHash b.index)
  else .ok { c with blocks := c.blocks ++ [b] }

/-- Appends blocks, whatever they link to, up to the first one that is refused. -/
def rebuild (c : Chain) : List Block → Outcome
  | [] => ⟨c, .ok 0⟩
  | b :: rest =>
    match appendUnlinked c b with
    | .error e => ⟨c, .error e⟩
    | .ok longer => let x := rebuild longer rest; { x with result := x.result.map (· + 1) }

/-- Swaps the whole chain. -/
def applyFull (c : Chain) (bs : List Block) : Outcome :=
  match bs with
  | [] => ⟨c, .ok 0⟩
  | b :: _ =>
    match bs.find? fun b => !b.hashMatches || !b.workDone with
    | some bad => ⟨c, .error (.invalidHash bad.index)⟩
    | none =>
      if Block.isSequence bs then rebuild { c with blocks := [] } bs
      else ⟨c, .error (.invalidLink b.index b.index)⟩

/-- Cuts the chain off at an index and appends blocks there. -/
def applySplice (c : Chain) (start : UInt64) (bs : List Block) : Outcome :=
  let kept : Chain := { c with blocks := c.blocks.takeWhile fun b => b.index < start }
  let x := kept.extend bs
  match x.refusal with
  | some e => if x.taken = 0 then ⟨c, .error e⟩ else ⟨x.chain, .ok x.taken⟩
  | none => ⟨x.chain, .ok x.taken⟩

end Replacement

/-- Applies a replacement. -/
def Chain.replace (c : Chain) : Replacement → Replacement.Outcome
  | .full bs => Replacement.applyFull c bs
  | .splice start bs => Replacement.applySplice c start bs

end WorkLedger
