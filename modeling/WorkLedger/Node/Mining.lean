import WorkLedger.Node.Staging

/-!
# Mining by a node

A node mines in rounds. A round begins by settling what is staged and choosing a candidate, and ends
by searching for its block. A block that cannot be found or appended gives its transactions back to
the queue.
-/

namespace WorkLedger.Node

/-- The candidate for the block after the last one; a chain without blocks has none. -/
def candidate? (n : Node) : Option Candidate :=
  n.chain.tail?.map fun tail =>
    ⟨tail.index + 1, tail.hash,
      n.chain.candidateTransactions (tail.index + 1) n.config.rewardAddress⟩

/-- Takes the waiting transactions into the next candidate. Without a block to build on, mining
ends. -/
def prepare (n : Node) : Node :=
  match n.candidate? with
  | none => { n with candidate := none }
  | some k =>
    { n with
      miner := n.miner.withDifficulty (n.chain.nextDifficulty n.config.initialDifficulty)
      chain := n.chain.drained
      candidate := some k }

/-- Begins a round. -/
def beginRound (n : Node) : Node := { n with miner := n.miner.resume }.settle.prepare

/-- Gives up the candidate. -/
def abandon (n : Node) : Node :=
  match n.candidate with
  | none => n
  | some k => { n with candidate := none, chain := n.chain.requeue k.transactions }

/-- Ends a round: searches for the block of the candidate, stamped with the given time. -/
def endRound (n : Node) (now : UInt64) : Node :=
  match n.candidate with
  | none => n
  | some k =>
    match n.miner.mine now k.index k.transactions k.previousHash with
    | none => n.abandon
    | some mined =>
      match n.chain.append mined.block with
      | .error _ => n.abandon
      | .ok chain =>
        { n with candidate := none, chain, store := (n.store.write mined.block).store }.announce

/-- Ends a round and begins the next one, if the node mines. -/
def mineRound (n : Node) (now : UInt64) : Node :=
  if n.isMining then (n.endRound now).beginRound else n

/-- Starts mining; tells whether the node did not mine before. -/
def startMining (n : Node) : Bool × Node :=
  if n.isMining then (false, n) else (true, n.beginRound)

/-- Stops mining, and settles what is staged; tells whether the node mined before. -/
def stopMining (n : Node) : Bool × Node :=
  (n.isMining, { n with miner := n.miner.cancel }.abandon.settle)

end WorkLedger.Node
