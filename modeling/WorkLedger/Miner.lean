import WorkLedger.Block.Basic

/-!
# Mining

A miner tries the nonces from zero upwards until the hash of its candidate meets the difficulty. The
digest of the transactions does not depend on the nonce and is computed once. A search can be
cancelled, and then ends without a block.
-/

namespace WorkLedger

/-- A miner: the name in its blocks, the difficulty of the next search, and whether searches are
cancelled. -/
structure Miner where
  id : String
  difficulty : UInt32
  cancelled : Bool

/-- A mined block, and the counter of the hashes that were tried for it. -/
structure Mined where
  block : Block
  tries : UInt64

/-- The number of hashes that the counter shows. -/
def Mined.attempts (mined : Mined) : Nat := mined.tries.toNat

namespace Miner

/-- A miner whose searches run. -/
def create (id : String) (difficulty : UInt32) : Miner := ⟨id, difficulty, false⟩

/-- The difficulty of the next search. -/
def withDifficulty (m : Miner) (difficulty : UInt32) : Miner := { m with difficulty }

/-- Cancels all searches. -/
def cancel (m : Miner) : Miner := { m with cancelled := true }

/-- Lets searches run again. -/
def resume (m : Miner) : Miner := { m with cancelled := false }

/-- The first nonce from `nonce` on whose hash meets the difficulty, that hash, and the counter of
the hashes tried, which stands at `tries` before this nonce. -/
def search (candidate : Block) (digest : String) (nonce tries : UInt64) :
    Option (UInt64 × String × UInt64) :=
  let hash := candidate.hashWith nonce digest
  if Difficulty.metByHex hash candidate.difficulty then some (nonce, hash, tries + 1)
  else if h : nonce.toNat + 1 < UInt64.size then search candidate digest (nonce + 1) (tries + 1)
  else none
termination_by UInt64.size - nonce.toNat
decreasing_by
  have hn : (nonce + 1).toNat = nonce.toNat + 1 := by
    rw [UInt64.toNat_add]; exact Nat.mod_eq_of_lt h
  omega

/-- Searches for the block with the given content, stamped with the given time. -/
def mine (m : Miner) (now index : UInt64) (transactions : List Transaction)
    (previousHash : String) : Option Mined :=
  if m.cancelled then none
  else
    let candidate := Block.unmined index previousHash now transactions m.difficulty m.id
    (search candidate candidate.digest 0 0).map fun (nonce, hash, tries) =>
      ⟨{ candidate with nonce, hash }, tries⟩

/-- The hashes tried in a second, for a search that took some milliseconds; all of them if it took
less than one. -/
def hashRate (attempts milliseconds : Nat) : Float :=
  if milliseconds > 0 then attempts.toFloat / (milliseconds.toFloat / 1000) else attempts.toFloat

end Miner

end WorkLedger
