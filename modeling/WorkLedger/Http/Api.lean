import WorkLedger.Chain.Account
import WorkLedger.Http.MediaType
import WorkLedger.Http.Message
import WorkLedger.Http.Target
import WorkLedger.Node.Conversation

/-!
# The interface for users

Users ask a node about its chain, its peers and its accounts, control it, and make payments.

Every path is known by the names and the number of its segments. A request for an unknown path is
answered before its method is looked at, and its method before the content of the request.
-/

namespace WorkLedger.Http

/-- What a path names. Parts of it that vary are kept as they are written. -/
inductive Route where
  | status
  | block (index : String)
  | blockDetails (index : String)
  | startMining
  | stopMining
  | quit
  | addPeer (address : String)
  | peers
  | balance (address : String)
  | account (address : String)
  | unspent (address : String)
  /-- Where payments are made. -/
  | payments
  | transaction (txid : String)
  deriving DecidableEq, Repr

/-- The route of a path. -/
def Route.ofSegments? : List String → Option Route
  | [""] => some status
  | ["startMining"] => some startMining
  | ["stopMining"] => some stopMining
  | ["quit"] => some quit
  | ["peers"] => some peers
  | ["api", "transactions"] => some payments
  | ["block-idx", part] => if part.isEmpty then none else some (block part)
  | ["addPeer", part] => if part.isEmpty then none else some (addPeer part)
  | ["block-idx", part, "details"] => if part.isEmpty then none else some (blockDetails part)
  | ["api", kind, part] =>
    if part.isEmpty then none
    else if kind = "balance" then some (balance part)
    else if kind = "ledger" then some (account part)
    else if kind = "unspent" then some (unspent part)
    else if kind = "transactions" then some (transaction part)
    else none
  | _ => none

/-- A reply, and the node after it. Answering may find that the chain is corrupt. -/
abbrev Answer := Except DanglingInput (Reply × Node)

/-- What is asked for when a payment is to be made. -/
structure PaymentOrder where
  privateKey : String
  receiver : String
  amount : Float

/-- An order out of a JSON value. -/
def PaymentOrder.decoder : Decoder PaymentOrder :=
  (Record.ofConstructor PaymentOrder.mk
    |>.required "privateKey" Decoder.text
    |>.required "receiver" Decoder.text
    |>.required "amount" Decoder.amount).decoder

/-- Answers without a change to the node. -/
def answered (n : Node) (r : Reply) : Answer := .ok (r, n)

/-- A reply about the state of mining. -/
def miningReply (changed : Bool) (n : Node) : Reply :=
  .json 200 (.object [("mining", .bool n.isMining), ("changed", .bool changed)])

/-- A reply that lists the peers. -/
def peersReply (n : Node) : Reply :=
  .json 200 (.array (n.peers.registered.map fun p =>
    .object [("id", .nat p.id), ("address", .string p.address), ("role", .string p.role.text)]))

/-- A reply that carries a block, if there is one. -/
def blockReply : Option Block → Reply
  | some b => .json 200 b.toJson
  | none => .failure 404 "invalid block"

/-- A reply that says where a transaction stands. -/
def positionReply (txid : String) : Option (UInt64 × Nat) → Reply
  | some (index, position) =>
    .json 200 (.object [("txid", .string txid), ("blockIndex", .nat index.toNat),
      ("txIndex", .nat position)])
  | none => .failure 404 ("Transaction " ++ txid ++ " not found")

/-- Goes on with the text of a segment; a segment that stands for none is refused. -/
def withText (n : Node) (segment : String) (k : String → Answer) : Answer :=
  match decodeSegment? segment with
  | some text => k text
  | none => answered n (.bare 400)

/-- Goes on with the index that a segment stands for; one that stands for none is refused. -/
def withIndex (n : Node) (segment : String) (k : UInt64 → Answer) : Answer :=
  withText n segment fun text =>
    match word64? text with
    | some index => k index
    | none => answered n (.bare 400)

/-- Connects to a peer. -/
def connectReply (n : Node) (dial : Node.Dialer) (address : String) : Answer :=
  match n.connect dial address with
  | .ok (id, joined) =>
    .ok (.json 200 (.object [("connectionId", .nat id), ("address", .string address)]), joined)
  | .error e => answered n (.failure 502 e.message)

/-- Answers a request to look at something. -/
def get (n : Node) (dial : Node.Dialer) : Route → Answer
  | .status => answered n (.json 200 n.status.toJson)
  | .block part => withIndex n part fun index => answered n (blockReply (n.chain.get? index))
  | .blockDetails part =>
    withIndex n part fun index => (n.chain.details index).map fun b => (blockReply b, n)
  | .startMining => let (changed, m) := n.startMining; answered m (miningReply changed m)
  | .stopMining => let (changed, m) := n.stopMining; answered m (miningReply changed m)
  | .quit =>
    answered n.requestStop (.json 200 (.object [("message", .string "shutting down")]))
  | .addPeer part => withText n part fun address => connectReply n dial address
  | .peers => answered n (peersReply n)
  | .balance part =>
    withText n part fun address =>
      (n.chain.balance address).map fun balance =>
        (.json 200 (.object [("address", .string address), ("balance", .amount balance)]), n)
  | .account part =>
    withText n part fun address =>
      (n.chain.account address).map fun entries =>
        (.json 200 (.array (entries.map AccountEntry.toJson)), n)
  | .unspent part =>
    withText n part fun address =>
      answered n (.json 200 (.array ((n.chain.unspent address).map UnspentOutput.toJson)))
  | .transaction part =>
    withText n part fun txid => answered n (positionReply txid (n.chain.find? txid))
  | .payments => answered n (.bare 405)

/-- The most bytes that the body of a request may have. -/
def longestBody : Nat := 2097152

/-- Answers an order of a payment. -/
def pay (n : Node) (contentType : Option String) (body : String) : Reply × Node :=
  if !(contentType.bind mediaType?).any MediaType.isJson then (.bare 415, n)
  else if longestBody < body.utf8ByteSize then (.bare 413, n)
  else
    match PaymentOrder.decoder.read body with
    | .error .malformed => (.bare 400, n)
    | .error .mismatched => (.bare 422, n)
    | .ok order =>
      match n.submit order.privateKey order.receiver order.amount with
      | .ok (tx, m) => (.json 200 tx.toJson, m)
      | .error e => (.failure 400 e.message, n)

/-- Answers a request. Questions about what is allowed are always answered, and a question for the
head of a reply does what the question for all of it does. -/
def respond (n : Node) (dial : Node.Dialer) (r : Request) : Answer :=
  if r.method = "OPTIONS" then answered n (.bare 200)
  else
    match Route.ofSegments? (segments r.target) with
    | none => answered n (.bare 404)
    | some .payments =>
      if r.method = "POST" then .ok (pay n r.contentType r.body) else answered n (.bare 405)
    | some route =>
      if r.method = "GET" then get n dial route
      else if r.method = "HEAD" then (get n dial route).map fun (reply, m) => (reply.headOnly, m)
      else answered n (.bare 405)

end WorkLedger.Http
