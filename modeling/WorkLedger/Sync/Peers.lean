import WorkLedger.Text.Blank

/-!
# Peers

A peer is registered under a number that is never used again. What is sent to it goes into its
mailbox, as long as somebody holds the other end of the connection. There are at most sixteen peers.
-/

namespace WorkLedger

/-- Who opened a connection. -/
inductive Role where
  /-- The peer did. -/
  | inbound
  /-- The node did. -/
  | outbound
  deriving DecidableEq, Repr

/-- The word for a role. -/
def Role.text : Role → String
  | inbound => "inbound"
  | outbound => "outbound"

/-- Why nothing can be sent to a peer, or no connection be made. -/
inductive PeerError where
  | connectionFailed (cause : String)
  | disconnected
  | maxPeersReached
  deriving DecidableEq, Repr

/-- The text of a peer error. -/
def PeerError.message : PeerError → String
  | connectionFailed cause => "Connection failed: " ++ cause
  | disconnected => "Peer disconnected"
  | maxPeersReached => "Max peers reached"

/-- A registered peer. -/
structure Peer where
  id : Nat
  address : String
  role : Role

/-- What was sent over a connection and not yet taken from its other end, oldest first. -/
structure Mailbox where
  id : Nat
  texts : List String

/-- The registered peers, in the order of their numbers, and the mailboxes whose other end is held. -/
structure Peers where
  registered : List Peer
  mailboxes : List Mailbox
  nextId : Nat

namespace Peers

/-- The most peers there can be. -/
def limit : Nat := 16

/-- Nobody. -/
def empty : Peers := ⟨[], [], 0⟩

/-- The number of registered peers. -/
def count (ps : Peers) : Nat := ps.registered.length

/-- Registers a peer, and opens its mailbox. -/
def add (ps : Peers) (address : String) (role : Role) : Except PeerError (Nat × Peers) :=
  if limit ≤ ps.count then .error .maxPeersReached
  else
    .ok (ps.nextId,
      ⟨ps.registered ++ [⟨ps.nextId, address, role⟩], ps.mailboxes ++ [⟨ps.nextId, []⟩],
        ps.nextId + 1⟩)

/-- Takes a peer out. -/
def remove (ps : Peers) (id : Nat) : Peers :=
  { ps with registered := ps.registered.filter fun p => p.id != id }

/-- Whether the other end of a connection is held. -/
def isHeld (ps : Peers) (id : Nat) : Bool := ps.mailboxes.any fun m => m.id == id

/-- Lets go of the other end of a connection. -/
def hangUp (ps : Peers) (id : Nat) : Peers :=
  { ps with mailboxes := ps.mailboxes.filter fun m => m.id != id }

/-- Puts a text into a mailbox. -/
def deliver (ps : Peers) (id : Nat) (text : String) : Peers :=
  { ps with
    mailboxes := ps.mailboxes.map fun m =>
      if m.id = id then { m with texts := m.texts ++ [text] } else m }

/-- Sends a text to a peer. -/
def send (ps : Peers) (id : Nat) (text : String) : Except PeerError Peers :=
  if ps.registered.any (fun p => p.id == id) && ps.isHeld id then .ok (ps.deliver id text)
  else .error .disconnected

/-- Sends a text to all peers; one that cannot be reached is passed over. -/
def broadcast (ps : Peers) (text : String) : Peers :=
  ps.registered.foldl (fun ps p => (ps.send p.id text).toOption.getD ps) ps

/-- Empties the mailboxes. -/
def emptied (ps : Peers) : Peers :=
  { ps with mailboxes := ps.mailboxes.map fun m => { m with texts := [] } }

/-- The mailboxes that hold something. -/
def received (ps : Peers) : List Mailbox := ps.mailboxes.filter fun m => !m.texts.isEmpty

end Peers

/-- The address of a peer as a URL; one that names no scheme takes the plain one. -/
def peerUrl (address : String) : String :=
  let url := Text.trim address
  if url.startsWith "ws://" || url.startsWith "wss://" then url else "ws://" ++ url

end WorkLedger
