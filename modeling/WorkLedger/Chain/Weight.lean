import WorkLedger.Chain.Basic

/-!
# The weight of a chain

A block of difficulty `d` stands for `2 ^ d` trials. The weight of a chain is the sum over its
blocks, and of two chains the heavier one prevails. Weights are words of 64 bits that stay at the
largest one instead of overflowing.
-/

namespace WorkLedger

/-- The sum of two words, or the largest word if the sum is larger. -/
def saturatingAdd (a b : UInt64) : UInt64 :=
  if UInt64.size ≤ a.toNat + b.toNat then UInt64.ofNat (UInt64.size - 1) else a + b

/-- The weight of a block of a difficulty. -/
def weightOf (difficulty : UInt32) : UInt64 :=
  if difficulty < 64 then 1 <<< difficulty.toUInt64 else UInt64.ofNat (UInt64.size - 1)

namespace Chain

/-- The weight of the blocks before an index. -/
def weightBefore (c : Chain) (index : UInt64) : UInt64 :=
  (c.blocks.takeWhile fun b => b.index < index).foldl
    (fun w b => saturatingAdd w (weightOf b.difficulty)) 0

/-- The weight of the whole chain. -/
def weight (c : Chain) : UInt64 :=
  match c.tail? with
  | some tail => c.weightBefore (tail.index + 1)
  | none => 0

end Chain

end WorkLedger
