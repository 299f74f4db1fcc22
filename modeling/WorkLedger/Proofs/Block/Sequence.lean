import Mathlib.Data.List.Chain
import WorkLedger.Block.Basic

/-!
# Genuine blocks and sequences of them

A block is genuine when its hash is that of its content and meets its
difficulty. A block that has not been mined has the hash of its content, so it
is genuine as soon as its difficulty is zero; the first block of every chain is
such a block.

A sequence is a chain in the sense of lists, for the relation of one block
following another one. Its indices count up from that of its first block, as
words: behind the largest one they start over (`HasNext`).
-/

namespace WorkLedger

theorem toNat_succ {n : UInt64} (hlt : n.toNat + 1 < UInt64.size) :
    (n + 1).toNat = n.toNat + 1 := by
  rw [UInt64.toNat_add, UInt64.toNat_one]
  exact Nat.mod_eq_of_lt hlt

theorem toNat_succ_of_lt {m n : UInt64} (h : m < n) : (m + 1).toNat = m.toNat + 1 :=
  toNat_succ (lt_of_le_of_lt (UInt64.lt_iff_toNat_lt.mp h) n.toNat_lt)

namespace Block

/-- The index after that of a block is a word. -/
def HasNext (b : Block) : Prop := b.index.toNat + 1 < UInt64.size

instance (b : Block) : Decidable b.HasNext := inferInstanceAs (Decidable (_ < _))

/-- A block is genuine when its hash is that of its content and meets its
difficulty. -/
def isGenuine (b : Block) : Bool := b.hashMatches && b.workDone

theorem isGenuine_iff (b : Block) :
    b.isGenuine = true ↔ b.hashMatches = true ∧ b.workDone = true := by
  simp [isGenuine]

theorem follows_iff (b previous : Block) :
    b.follows previous = true ↔
      b.index = previous.index + 1 ∧ b.previousHash = previous.hash ∧
        b.hashMatches = true := by
  simp [follows, and_assoc]

theorem hashMatches_unmined (index : UInt64) (previousHash : String)
    (timestamp : UInt64) (transactions : List Transaction) (difficulty : UInt32)
    (minerId : String) :
    (unmined index previousHash timestamp transactions difficulty
      minerId).hashMatches = true := by
  rw [hashMatches, beq_iff_eq]
  rfl

/-- A hash of its content meets the difficulty zero. -/
theorem workDone_of_difficulty_eq_zero {b : Block} (h : b.hashMatches = true)
    (hzero : b.difficulty = 0) : b.workDone = true := by
  rw [hashMatches, beq_iff_eq] at h
  rw [workDone, h, hzero, contentHash, hashWith, Sha256.hexOfText,
    Difficulty.metByHex, Hex.decode?_encode]
  rfl

theorem isGenuine_unmined (index : UInt64) (previousHash : String) (timestamp : UInt64)
    (transactions : List Transaction) (minerId : String) :
    (unmined index previousHash timestamp transactions 0 minerId).isGenuine = true := by
  have hmatches := hashMatches_unmined index previousHash timestamp transactions 0 minerId
  rw [isGenuine_iff]
  exact ⟨hmatches, workDone_of_difficulty_eq_zero hmatches rfl⟩

theorem isGenuine_genesis : genesis.isGenuine = true := isGenuine_unmined _ _ _ _ _

theorem hash_genesis :
    genesis.hash = "b5430924732709b580b33739c78f88f30cec4e76c0f335a9301afae935fa5b56" := by
  decide +kernel

/-- An empty block on top of another one, without any work to do. -/
def onTop (b : Block) (timestamp : UInt64) : Block :=
  unmined (b.index + 1) b.hash timestamp [] 0 "miner"

theorem follows_onTop (b : Block) (timestamp : UInt64) :
    (b.onTop timestamp).follows b = true := by
  rw [follows_iff]
  exact ⟨rfl, rfl, hashMatches_unmined _ _ _ _ _ _⟩

theorem isGenuine_onTop (b : Block) (timestamp : UInt64) :
    (b.onTop timestamp).isGenuine = true := isGenuine_unmined _ _ _ _ _

/-- The sequences are the lists whose neighbours follow each other. -/
theorem isSequence_iff_isChain (bs : List Block) :
    isSequence bs = true ↔
      bs.IsChain fun previous b => b.follows previous = true := by
  induction bs with
  | nil => simp
  | cons previous rest ih =>
      cases rest with
      | nil => simp
      | cons b rest =>
          rw [isSequence_cons_cons, Bool.and_eq_true, ih,
            List.isChain_cons_cons]

/-- Blocks on top of another one that hold some transactions each, without any
work to do. -/
def stack (b : Block) : List (List Transaction) → List Block
  | [] => []
  | transactions :: rest =>
    let next := unmined (b.index + 1) b.hash 0 transactions 0 "miner"
    next :: next.stack rest

theorem isSequence_stack (b : Block) (held : List (List Transaction)) :
    isSequence (b :: b.stack held) = true := by
  induction held generalizing b with
  | nil => rfl
  | cons transactions rest ih =>
      rw [stack, isSequence_cons_cons, ih, Bool.and_true, follows_iff]
      exact ⟨rfl, rfl, hashMatches_unmined _ _ _ _ _ _⟩

/-- In a sequence every block follows the one at the position before it. -/
theorem follows_of_isSequence {bs : List Block} (h : isSequence bs = true) {i : ℕ}
    {previous b : Block} (hprevious : bs[i]? = some previous)
    (hb : bs[i + 1]? = some b) : b.follows previous = true := by
  obtain ⟨hlt, hget⟩ := List.getElem?_eq_some_iff.mp hb
  obtain ⟨_, hget'⟩ := List.getElem?_eq_some_iff.mp hprevious
  have hfollows := List.IsChain.getElem ((isSequence_iff_isChain bs).mp h) i hlt
  rw [hget, hget'] at hfollows
  exact hfollows

/-- The indices of a sequence count up from that of its first block. -/
theorem index_of_isSequence {bs : List Block} (h : isSequence bs = true)
    {first b : Block} (hfirst : bs.head? = some first) {i : ℕ}
    (hb : bs[i]? = some b) : b.index = first.index + UInt64.ofNat i := by
  induction i generalizing b with
  | zero =>
      have heq : first = b := by
        rw [List.head?_eq_getElem?, hb] at hfirst
        exact (Option.some.inj hfirst).symm
      rw [heq]
      exact (UInt64.add_zero b.index).symm
  | succ i ih =>
      have hlt : i + 1 < bs.length := (List.getElem?_eq_some_iff.mp hb).1
      have hprevious : bs[i]? = some bs[i] := List.getElem?_eq_getElem (by omega)
      have hfollows := follows_of_isSequence h hprevious hb
      rw [((follows_iff _ _).mp hfollows).1, ih hprevious,
        UInt64.ofNat_add, UInt64.add_assoc]
      rfl

end Block

end WorkLedger
