import WorkLedger.BlockStore
import WorkLedger.Chain.Queue
import WorkLedger.Chain.Retarget
import WorkLedger.Chain.Weight
import WorkLedger.Miner
import WorkLedger.Payment
import WorkLedger.Sync.Peers
import WorkLedger.Sync.Reconciler

/-!
# Nodes

A node holds a chain, the store that the chain is kept in, a miner, and its peers. While it mines, it
has a candidate: the content of the next block, with the waiting transactions taken out of the queue.
A replacement of blocks is put aside until nothing is being mined on the old ones.
-/

namespace WorkLedger

/-- How a node is set up. -/
structure NodeConfig where
  /-- The difficulty of the first mined block. -/
  initialDifficulty : UInt32
  /-- Whether a chain with another first block may be taken over. -/
  allowReset : Bool
  /-- The name in mined blocks. -/
  minerId : String
  /-- Who receives the rewards. -/
  rewardAddress : String
  /-- The peers to connect to at the start. -/
  bootstrap : List String

/-- The content of a block to be mined. -/
structure Candidate where
  index : UInt64
  previousHash : String
  transactions : List Transaction

/-- A node. -/
structure Node where
  config : NodeConfig
  chain : Chain
  store : BlockStore
  miner : Miner
  peers : Peers
  /-- The replacement that was put aside. -/
  staged : Option Replacement
  /-- What is being mined; nothing if the node does not mine. -/
  candidate : Option Candidate
  /-- Whether peers are served. -/
  started : Bool
  /-- Whether somebody asked the node to stop. -/
  stopRequested : Bool

/-- What a node tells about itself. -/
structure NodeStatus where
  mining : Bool
  height : UInt64
  tailHash : String
  weight : UInt64
  nextDifficulty : UInt32
  pending : Nat
  peers : Nat
  minerId : String
  rewardAddress : String

/-- A status as a JSON value. -/
def NodeStatus.toJson (s : NodeStatus) : Json :=
  .object [("mining", .bool s.mining), ("height", .nat s.height.toNat),
    ("tailHash", .string s.tailHash), ("cumulativeDifficulty", .nat s.weight.toNat),
    ("nextDifficulty", .nat s.nextDifficulty.toNat), ("pendingTransactions", .nat s.pending),
    ("peers", .nat s.peers), ("minerId", .string s.minerId),
    ("rewardAddress", .string s.rewardAddress)]

/-- The summary that a chain is announced with; a chain without blocks has none. -/
def Chain.summary? (c : Chain) : Option Response :=
  c.first?.bind fun first => c.tail?.map fun tail => .summary first tail c.weight

/-- Why a node cannot be made, and what the store is then. -/
structure NodeFailure where
  cause : StoreError
  store : BlockStore

namespace Node

/-- A node on the stored chain. -/
def create (config : NodeConfig) (store : BlockStore) : Except NodeFailure Node :=
  let r := store.restore Chain.empty
  match r.result with
  | .error cause => .error ⟨cause, r.store⟩
  | .ok _ =>
    .ok {
      config
      chain := r.chain
      store := r.store
      miner := Miner.create config.minerId (r.chain.nextDifficulty config.initialDifficulty)
      peers := Peers.empty
      staged := none
      candidate := none
      started := false
      stopRequested := false }

/-- Whether the node mines. -/
def isMining (n : Node) : Bool := n.candidate.isSome

/-- The status of the node. -/
def status (n : Node) : NodeStatus :=
  { mining := n.isMining
    height := (n.chain.tail?.map Block.index).getD 0
    tailHash := (n.chain.tail?.map Block.hash).getD ""
    weight := n.chain.weight
    nextDifficulty := n.chain.nextDifficulty n.config.initialDifficulty
    pending := n.chain.pending.length
    peers := n.peers.count
    minerId := n.config.minerId
    rewardAddress := n.config.rewardAddress }

/-- Sends a text to a peer; nothing happens if it cannot be reached. -/
def sendText (n : Node) (id : Nat) (text : String) : Node :=
  { n with peers := (n.peers.send id text).toOption.getD n.peers }

/-- Sends the summary of the chain to a peer, if there is one. -/
def sendSummary (n : Node) (id : Nat) : Node :=
  match n.chain.summary? with
  | some summary => n.sendText id summary.text
  | none => n

/-- Announces the chain to all peers. -/
def announce (n : Node) : Node :=
  match n.chain.summary? with
  | some summary => { n with peers := n.peers.broadcast summary.text }
  | none => n

/-- Makes a payment and puts it into the queue. -/
def submit (n : Node) (privateKey receiver : String) (amount : Float) :
    Except PaymentError (Transaction × Node) :=
  (Payment.make n.chain privateKey receiver amount).map fun tx =>
    (tx, { n with chain := n.chain.enqueue tx })

@[simp] theorem chain_sendText (n : Node) (id : Nat) (text : String) :
    (n.sendText id text).chain = n.chain := rfl

@[simp] theorem store_sendText (n : Node) (id : Nat) (text : String) :
    (n.sendText id text).store = n.store := rfl

@[simp] theorem chain_announce (n : Node) : n.announce.chain = n.chain := by
  unfold announce; split <;> rfl

@[simp] theorem store_announce (n : Node) : n.announce.store = n.store := by
  unfold announce; split <;> rfl

end Node

end WorkLedger
