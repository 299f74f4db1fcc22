import WorkLedger.Difficulty
import WorkLedger.Transaction.Basic

/-!
# Blocks

A block links to its predecessor by hash. Its own hash covers its header and, through a digest of
their payloads, its transactions in order; the name of the miner is not covered. The hash has to
start with as many zero bits as the block's difficulty says.
-/

namespace WorkLedger

/-- A block. -/
structure Block where
  index : UInt64
  /-- The hash of the block before this one; empty in the first block. -/
  previousHash : String
  hash : String
  /-- Milliseconds since the beginning of 1970. -/
  timestamp : UInt64
  difficulty : UInt32
  nonce : UInt64
  minerId : String
  transactions : List Transaction

namespace Block

/-- The text that the transactions of a block are hashed as. -/
def payloadsText (txs : List Transaction) : String :=
  String.ofList (txs.flatMap Transaction.payloadChars)

/-- The digest of a list of transactions. -/
def digestOf (txs : List Transaction) : String := Sha256.hexOfText (payloadsText txs)

/-- The digest of the transactions of a block. -/
def digest (b : Block) : String := digestOf b.transactions

/-- The characters that a block is hashed as, for a nonce and a digest of its transactions. -/
def headerChars (b : Block) (nonce : UInt64) (digest : String) : List Char :=
  Decimal.natChars b.index.toNat ++ ':' :: (b.previousHash.toList
    ++ ':' :: (Decimal.natChars b.timestamp.toNat ++ ':' :: (Decimal.natChars b.difficulty.toNat
      ++ ':' :: (Decimal.natChars nonce.toNat ++ ':' :: digest.toList))))

/-- The text that a block is hashed as. -/
def headerText (b : Block) (nonce : UInt64) (digest : String) : String :=
  String.ofList (b.headerChars nonce digest)

/-- The hash of a block for a nonce and a digest of its transactions. -/
def hashWith (b : Block) (nonce : UInt64) (digest : String) : String :=
  Sha256.hexOfText (b.headerText nonce digest)

/-- The hash that belongs to the content of a block. -/
def contentHash (b : Block) : String := b.hashWith b.nonce b.digest

/-- Whether the hash of a block is that of its content. -/
def hashMatches (b : Block) : Bool := b.hash == b.contentHash

/-- Whether the hash of a block meets the block's difficulty. -/
def workDone (b : Block) : Bool := Difficulty.metByHex b.hash b.difficulty

/-- A block that has not been mined: its nonce is zero and its hash belongs to its content, whether
or not it meets the difficulty. -/
def unmined (index : UInt64) (previousHash : String) (timestamp : UInt64)
    (transactions : List Transaction) (difficulty : UInt32) (minerId : String) : Block :=
  let b : Block := ⟨index, previousHash, "", timestamp, difficulty, 0, minerId, transactions⟩
  { b with hash := b.contentHash }

/-- The first block of every chain, stamped with the beginning of 2020. -/
def genesis : Block := unmined 0 "" 1577836800000 [] 0 "genesis"

/-- Whether a block may follow another one: its index is the next, it links to the other's hash,
and its own hash is that of its content. -/
def follows (b previous : Block) : Bool :=
  b.index == previous.index + 1 && b.previousHash == previous.hash && b.hashMatches

/-- Whether each block of a list may follow the one before it. -/
def isSequence : List Block → Bool
  | previous :: b :: rest => b.follows previous && isSequence (b :: rest)
  | _ => true

@[simp] theorem isSequence_nil : isSequence [] = true := rfl

@[simp] theorem isSequence_singleton (b : Block) : isSequence [b] = true := rfl

theorem isSequence_cons_cons (previous b : Block) (rest : List Block) :
    isSequence (previous :: b :: rest) = (b.follows previous && isSequence (b :: rest)) := rfl

end Block

end WorkLedger
