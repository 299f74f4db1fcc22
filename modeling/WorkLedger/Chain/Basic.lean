import WorkLedger.Block.Basic

/-!
# The chain

The chain is the list of its blocks, oldest first, with the queue of transactions that wait for a
block. A block is appended only if its hash is that of its content and meets its difficulty, and if
it links to the last block; the first block of an empty chain has nothing to link to.
-/

namespace WorkLedger

/-- Why a block, or a list of blocks, is not taken into the chain. -/
inductive ChainError where
  /-- The hash of a block is not that of its content, or does not meet its difficulty. -/
  | invalidHash (index : UInt64)
  /-- A block does not follow the last one. -/
  | invalidLink (index tailIndex : UInt64)
  deriving DecidableEq, Repr

/-- The text of a chain error. -/
def ChainError.message : ChainError → String
  | invalidHash index => "Invalid hash for block " ++ Decimal.natText index.toNat
  | invalidLink index tailIndex =>
    "Block " ++ Decimal.natText index.toNat ++ " does not link to tail "
      ++ Decimal.natText tailIndex.toNat

/-- The blocks and the waiting transactions. -/
structure Chain where
  blocks : List Block
  pending : List Transaction

namespace Chain

/-- Some blocks as they are, with nothing waiting. -/
def ofBlocks (blocks : List Block) : Chain := ⟨blocks, []⟩

/-- The chain without blocks. -/
def empty : Chain := ofBlocks []

/-- The chain that holds only the first block. -/
def start : Chain := ofBlocks [Block.genesis]

/-- The first block. -/
def first? (c : Chain) : Option Block := c.blocks.head?

/-- The last block. -/
def tail? (c : Chain) : Option Block := c.blocks.getLast?

/-- The block with an index: it has to stand at the position of that number. -/
def get? (c : Chain) (index : UInt64) : Option Block :=
  c.blocks[index.toNat]?.filter fun b => b.index == index

/-- The blocks from the index `first` to the index `last`, if there is a block with index `first`. -/
def range? (c : Chain) (first last : UInt64) : Option (List Block) :=
  match c.blocks.dropWhile fun b => b.index != first with
  | [] => none
  | found => some (found.takeWhile fun b => b.index ≤ last)

/-- Whether every block follows the one before it. -/
def isValid (c : Chain) : Bool := Block.isSequence c.blocks

/-- Why a block cannot be appended, if it cannot. -/
def refusal? (c : Chain) (b : Block) : Option ChainError :=
  if !b.hashMatches || !b.workDone then some (.invalidHash b.index)
  else
    match c.tail? with
    | none => none
    | some tail =>
      if b.previousHash != tail.hash || b.index != tail.index + 1 then
        some (.invalidLink b.index tail.index)
      else none

/-- Appends a block. -/
def append (c : Chain) (b : Block) : Except ChainError Chain :=
  match c.refusal? b with
  | some e => .error e
  | none => .ok { c with blocks := c.blocks ++ [b] }

/-- What came of appending blocks one by one: the chain, how many were taken, and the refusal of the
first one that was not. -/
structure Extension where
  chain : Chain
  taken : Nat
  refusal : Option ChainError

/-- Appends blocks in order up to the first one that is refused. -/
def extend (c : Chain) : List Block → Extension
  | [] => ⟨c, 0, none⟩
  | b :: rest =>
    match c.append b with
    | .error e => ⟨c, 0, some e⟩
    | .ok longer => let x := longer.extend rest; { x with taken := x.taken + 1 }

@[simp] theorem blocks_ofBlocks (blocks : List Block) : (ofBlocks blocks).blocks = blocks := rfl

@[simp] theorem tail?_empty : empty.tail? = none := rfl

theorem append_eq_ok {c d : Chain} {b : Block} (h : c.append b = .ok d) :
    c.refusal? b = none ∧ d = { c with blocks := c.blocks ++ [b] } := by
  unfold append at h
  split at h
  · cases h
  · next hr => exact ⟨hr, by cases h; rfl⟩

@[simp] theorem extend_nil (c : Chain) : c.extend [] = ⟨c, 0, none⟩ := rfl

end Chain

end WorkLedger
