import WorkLedger.Miner
import WorkLedger.Proofs.Chain.Sound

/-!
# Mined blocks

A search returns a nonce together with the hash of the candidate for it, which
meets the difficulty, after it has passed over nonces whose hashes do not
(`finds_of_search`). So the block that comes out is genuine, and a chain that it
was mined for takes it. Every hash meets the difficulty zero: there the first nonce
is found, and the block is the candidate as it was.
-/

namespace WorkLedger

namespace Miner

/-- Whether the hash of a candidate for a nonce meets its difficulty. -/
def hits (candidate : Block) (digest : String) (nonce : UInt64) : Bool :=
  Difficulty.metByHex (candidate.hashWith nonce digest) candidate.difficulty

/-- A nonce from another one on is that one or comes behind it. -/
theorem eq_or_succ_le {nonce n : UInt64} (hlt : nonce.toNat + 1 < UInt64.size) (hn : nonce ≤ n) :
    n = nonce ∨ nonce + 1 ≤ n := by
  rw [UInt64.le_iff_toNat_le] at hn ⊢
  rw [toNat_succ hlt, ← UInt64.toNat_inj]
  omega

/-- What a search from a nonce on has found: a nonce that does, after it passed over nonces only
that do not. The counter goes along with the nonces, one ahead of them. -/
structure Finds (candidate : Block) (digest : String) (nonce tries found : UInt64) (hash : String)
    (total : UInt64) : Prop where
  hash : hash = candidate.hashWith found digest
  met : hits candidate digest found = true
  passed : ∀ n, nonce ≤ n → n < found → hits candidate digest n = false
  counted : tries = nonce → total = found + 1

section

variable {candidate : Block} {digest : String} {nonce tries : UInt64}

theorem finds_of_search {found total : UInt64} {hash : String}
    (h : search candidate digest nonce tries = some (found, hash, total)) :
    Finds candidate digest nonce tries found hash total := by
  induction nonce, tries using search.induct candidate digest with
  | case1 nonce tries hash' hmet =>
      rw [search, if_pos hmet] at h
      simp only [Option.some.injEq, Prod.mk.injEq] at h
      obtain ⟨rfl, rfl, rfl⟩ := h
      exact ⟨rfl, hmet, fun n hn hfound => absurd hfound (UInt64.not_lt.mpr hn),
        congrArg (· + 1)⟩
  | case2 nonce tries hash' hmet hlt ih =>
      rw [search, if_neg hmet, dif_pos hlt] at h
      have hlater := ih h
      refine ⟨hlater.hash, hlater.met, fun n hn hfound => ?_, fun htries =>
        hlater.counted (congrArg (· + 1) htries)⟩
      rcases eq_or_succ_le hlt hn with rfl | hbehind
      · exact Bool.eq_false_iff.mpr hmet
      · exact hlater.passed n hbehind hfound
  | case3 nonce tries hash' hmet hlt =>
      rw [search, if_neg hmet, dif_neg hlt] at h
      cases h

theorem search_of_hits (h : hits candidate digest nonce = true) :
    search candidate digest nonce tries =
      some (nonce, candidate.hashWith nonce digest, tries + 1) := by
  rw [hits] at h
  rw [search, if_pos h]

end

/-- What a miner returns is a genuine block with the given content. -/
structure Yields (m : Miner) (now index : UInt64) (transactions : List Transaction)
    (previousHash : String) (b : Block) : Prop where
  index : b.index = index
  previousHash : b.previousHash = previousHash
  timestamp : b.timestamp = now
  transactions : b.transactions = transactions
  difficulty : b.difficulty = m.difficulty
  minerId : b.minerId = m.id
  genuine : b.isGenuine = true

theorem yields_of_mine {m : Miner} {now index : UInt64} {transactions : List Transaction}
    {previousHash : String} {mined : Mined}
    (h : m.mine now index transactions previousHash = some mined) :
    m.Yields now index transactions previousHash mined.block := by
  rw [mine] at h
  split at h
  · cases h
  · obtain ⟨⟨nonce, hash, _⟩, hsearch, rfl⟩ := Option.map_eq_some_iff.mp h
    obtain ⟨hhash, hmet, -, -⟩ := finds_of_search hsearch
    rw [hits, ← hhash] at hmet
    refine ⟨rfl, rfl, rfl, rfl, rfl, rfl, ?_⟩
    rw [Block.isGenuine_iff, Block.hashMatches, beq_iff_eq]
    exact ⟨hhash, hmet⟩

theorem mine_of_met {m : Miner} (hcancelled : m.cancelled = false) {now index : UInt64}
    {transactions : List Transaction} {previousHash : String}
    (h : (Block.unmined index previousHash now transactions m.difficulty m.id).workDone =
      true) :
    m.mine now index transactions previousHash =
      some ⟨Block.unmined index previousHash now transactions m.difficulty m.id, 1⟩ := by
  generalize hb : Block.unmined index previousHash now transactions m.difficulty m.id = b at h
  have hsame : { b with nonce := 0, hash := b.hashWith 0 b.digest } = b := by
    rw [← hb]
    rfl
  have hmet : hits b b.digest 0 = true := by
    rw [← hsame] at h
    exact h
  rw [mine, hcancelled, if_neg Bool.false_ne_true, hb]
  simp only [search_of_hits hmet, Option.map_some, hsame]
  rfl

theorem mine_of_difficulty_eq_zero (id : String) (now index : UInt64)
    (transactions : List Transaction) (previousHash : String) :
    (create id 0).mine now index transactions previousHash =
      some ⟨Block.unmined index previousHash now transactions 0 id, 1⟩ :=
  mine_of_met rfl (Block.workDone_of_difficulty_eq_zero
    (Block.hashMatches_unmined index previousHash now transactions 0 id) rfl)

end Miner

/-- A chain takes a block that was mined on its last one. -/
theorem Chain.append_of_yields {c : Chain} {tail : Block} (htail : c.tail? = some tail)
    {m : Miner} {now : UInt64} {transactions : List Transaction} {b : Block}
    (h : m.Yields now (tail.index + 1) transactions tail.hash b) :
    c.append b = .ok { c with blocks := c.blocks ++ [b] } := by
  apply append_of_refusal?_eq_none
  rw [refusal?_eq_none_iff]
  refine ⟨h.genuine, ?_⟩
  intro last hlast
  obtain rfl := Option.some.inj (htail.symm.trans hlast)
  rw [Block.follows_iff]
  exact ⟨h.index, h.previousHash, ((Block.isGenuine_iff b).mp h.genuine).1⟩

end WorkLedger
