import WorkLedger.Chain.Basic

/-!
# The difficulty of the next block

Every tenth block the time that the last ten took is compared with the minute that they should
take. If it was less than half of that the difficulty goes up by one, if it was more than twice of
it the difficulty goes down by one, and between those blocks it stays.
-/

namespace WorkLedger.Chain

/-- The number of blocks from one adjustment of the difficulty to the next. -/
def interval : Nat := 10

/-- The seconds that the blocks of an interval should take. -/
def targetSeconds : Nat := 60

/-- The whole seconds from one time to a later one; none if the clock went backwards. -/
def secondsBetween (earlier later : UInt64) : Nat := (later.toNat - earlier.toNat) / 1000

/-- A difficulty raised by one, unless it is the largest. -/
def raised (d : UInt32) : UInt32 := if d.toNat + 1 < UInt32.size then d + 1 else d

/-- A difficulty lowered by one, unless it is zero. -/
def lowered (d : UInt32) : UInt32 := if d = 0 then 0 else d - 1

/-- The difficulty after an interval that took some seconds. -/
def retarget (d : UInt32) (seconds : Nat) : UInt32 :=
  if seconds < targetSeconds / 2 then raised d
  else if seconds > targetSeconds * 2 then lowered d
  else d

/-- The difficulty that the block after the last one has to carry. -/
def adjustedDifficulty (c : Chain) : UInt32 :=
  match c.tail? with
  | none => 0
  | some tail =>
    if (tail.index + 1) % UInt64.ofNat interval != 0 then tail.difficulty
    else if c.blocks.length < interval then tail.difficulty
    else
      match c.blocks[c.blocks.length - interval]? with
      | none => tail.difficulty
      | some opening =>
        retarget tail.difficulty (secondsBetween opening.timestamp tail.timestamp)

/-- The difficulty of the next block to mine; on the first block alone it is the given one. -/
def nextDifficulty (c : Chain) (initial : UInt32) : UInt32 :=
  match c.tail? with
  | some tail => if tail.index > 0 then c.adjustedDifficulty else initial
  | none => initial

end WorkLedger.Chain
