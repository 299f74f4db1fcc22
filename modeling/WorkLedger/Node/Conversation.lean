import WorkLedger.Node.Mining

/-!
# Conversations with peers

A node answers the requests of its peers, and follows up their answers until the chains agree.
-/

namespace WorkLedger.Node

/-- What is said about a range that starts nowhere in the chain. -/
def unknownRangeText : String := "could not find id1 in chain"

/-- What is said about a message of an unknown kind. -/
def unknownKindText : String := "unknown message"

/-- What is said when there is no block to summarise. -/
def emptyChainText : String := "empty chain"

/-- The answer to a request. -/
def answer (n : Node) : Except FrameError Request → Response
  | .error .malformed => .error none FrameError.malformed.message
  | .error e => .error (some Envelope.chainKind) e.message
  | .ok .summary =>
    n.chain.summary?.getD (.error (some Envelope.summaryKind) emptyChainText)
  | .ok (.chain none) => .chain n.chain.blocks
  | .ok (.chain (some range)) =>
    match n.chain.range? range.first range.last with
    | some blocks => .chain blocks
    | none => .error (some Envelope.chainKind) unknownRangeText
  | .ok (.unknown kind) => .error (some kind) unknownKindText

/-- The policy of the node. -/
def reconciler (n : Node) : Reconciler := ⟨n.config.allowReset⟩

/-- Takes blocks from a peer: those that continue the chain are stored, and the search on the old
last block is cancelled. -/
def takeBlocks (n : Node) (peer : Nat) (blocks : List Block) : Node :=
  let (outcome, chain) := n.reconciler.reconcile n.chain blocks
  match outcome with
  | .discarded => n
  | .extended 0 => n
  | .extended count =>
    { n with
      chain
      store := n.store.writeEach (chain.blocks.drop (chain.blocks.length - count))
      miner := n.miner.cancel }.announce
  | .replace replacement => n.stage replacement
  | .requestRange range => n.sendText peer (Request.chain (some range)).text

/-- Follows up a response. -/
def follow (n : Node) (peer : Nat) : Response → Node
  | .summary first tail weight =>
    match n.reconciler.onSummary n.chain first tail weight with
    | .ignore => n
    | .requestFull => n.sendText peer (Request.chain none).text
    | .requestRange range => n.sendText peer (Request.chain (some range)).text
  | .chain blocks => n.takeBlocks peer blocks
  | .error _ _ => n
  | .unknown _ => n

/-- Takes a frame from a peer. One that is no envelope is answered only if the peer opened the
connection. -/
def receive (n : Node) (peer : Nat) (role : Role) (text : String) : Node :=
  match Frame.classify text with
  | .request request => n.sendText peer (n.answer request).text
  | .response (.ok response) => n.follow peer response
  | .response (.error _) => n
  | .unparseable =>
    match role with
    | .inbound => n.sendText peer (n.answer (.error .malformed)).text
    | .outbound => n

/-- Takes in a peer that opened a connection, unless there are too many. -/
def welcome (n : Node) (address : String) : Node :=
  match n.peers.add address .inbound with
  | .ok (id, peers) => { n with peers }.sendSummary id
  | .error _ => n

/-- A way to open connections: it tells why one cannot be opened, if it cannot. -/
abbrev Dialer := String → Option String

/-- Connects to a peer, asks for its summary and sends the own one. -/
def connect (n : Node) (dial : Dialer) (address : String) : Except PeerError (Nat × Node) :=
  let url := peerUrl address
  match dial url with
  | some cause => .error (.connectionFailed (url ++ ": " ++ cause))
  | none =>
    (n.peers.add url .outbound).map fun (id, peers) =>
      (id, ({ n with peers }.sendText id Request.summary.text).sendSummary id)

/-- Connects to several peers, passing over those that cannot be reached. -/
def connectAll (n : Node) (dial : Dialer) (addresses : List String) : Node :=
  addresses.foldl
    (fun n address => ((n.connect dial address).toOption.map Prod.snd).getD n) n

/-- Forgets a peer whose connection is closed. -/
def forget (n : Node) (peer : Nat) : Node :=
  { n with peers := (n.peers.remove peer).hangUp peer }

/-- Starts serving peers, once. -/
def start (n : Node) (dial : Dialer) : Except PeerError Node :=
  if n.started then .error (.connectionFailed "node already started")
  else .ok ({ n with started := true }.connectAll dial n.config.bootstrap)

/-- Asks the node to stop. -/
def requestStop (n : Node) : Node := { n with stopRequested := true }

/-- Stops mining and serving. -/
def shutdown (n : Node) : Node := n.stopMining.2.requestStop

end WorkLedger.Node
