import WorkLedger.Proofs.Mining.Found

/-!
# The first nonce

A search goes through the nonces in order, so the nonce that it finds is the least one whose hash
meets the difficulty, and it finds none only if there is none. The hashes that it tries use the
digest of the transactions from before the search, and the block that comes out has the same
transactions: its own hash, computed anew, is the one that was found. The counter of the hashes is
one ahead of the nonce.
-/

namespace WorkLedger

/-- A block with another nonce, and with the hash that belongs to its content then. -/
def Block.withNonce (b : Block) (nonce : UInt64) : Block :=
  { b with nonce, hash := b.hashWith nonce b.digest }

/-- A mined block has the least nonce that does the work: its hash is that of its content and
meets its difficulty, and as many hashes were tried as there are nonces up to its own. -/
structure Mined.IsFirst (mined : Mined) : Prop where
  hash : mined.block.hash = mined.block.contentHash
  workDone : mined.block.workDone = true
  least : ∀ nonce < mined.block.nonce, (mined.block.withNonce nonce).workDone = false
  tries : mined.tries = mined.block.nonce + 1
  /-- Counter and nonce are words; as numbers they are one apart unless all nonces were tried. -/
  attempts : mined.block.nonce.toNat + 1 < UInt64.size →
    mined.attempts = mined.block.nonce.toNat + 1

namespace Miner

section

variable {candidate : Block} {digest : String} {nonce tries : UInt64}

theorem search_of_not_hits (h : hits candidate digest nonce = false)
    (hlt : nonce.toNat + 1 < UInt64.size) :
    search candidate digest nonce tries = search candidate digest (nonce + 1) (tries + 1) := by
  rw [hits] at h
  rw [search, if_neg (Bool.eq_false_iff.mp h), dif_pos hlt]

/-- A search comes to nothing exactly if no nonce from its start on does. -/
theorem search_eq_none_iff : search candidate digest nonce tries = none ↔
    ∀ n, nonce ≤ n → hits candidate digest n = false := by
  induction nonce, tries using search.induct candidate digest with
  | case1 nonce tries hash' hmet =>
      rw [search, if_pos hmet]
      constructor
      · intro hsome
        cases hsome
      · intro hnone
        exact absurd (hmet.symm.trans (hnone nonce (UInt64.le_refl nonce))) (by decide)
  | case2 nonce tries hash' hmet hlt ih =>
      rw [search, if_neg hmet, dif_pos hlt, ih]
      constructor
      · intro hnone n hn
        rcases eq_or_succ_le hlt hn with rfl | hlater
        · exact Bool.eq_false_iff.mpr hmet
        · exact hnone n hlater
      · intro hnone n hn
        refine hnone n (UInt64.le_trans ?_ hn)
        rw [UInt64.le_iff_toNat_le, toNat_succ hlt]
        exact Nat.le_succ _
  | case3 nonce tries hash' hmet hlt =>
      rw [search, if_neg hmet, dif_neg hlt]
      refine ⟨fun _ n hn => ?_, fun _ => rfl⟩
      have hlast := n.toNat_lt
      have hsame : n = nonce := by
        rw [UInt64.le_iff_toNat_le] at hn
        rw [← UInt64.toNat_inj]
        rw [UInt64.size] at hlt
        omega
      rw [hsame]
      exact Bool.eq_false_iff.mpr hmet

end

section

variable {m : Miner} {now index : UInt64} {transactions : List Transaction}
  {previousHash : String}

theorem isFirst_of_mine {mined : Mined}
    (h : m.mine now index transactions previousHash = some mined) : mined.IsFirst := by
  have hyields := yields_of_mine h
  obtain ⟨hmatches, hdone⟩ := (Block.isGenuine_iff _).mp hyields.genuine
  rw [Block.hashMatches, beq_iff_eq] at hmatches
  rw [mine] at h
  split at h
  · cases h
  · obtain ⟨⟨found, hash, total⟩, hsearch, rfl⟩ := Option.map_eq_some_iff.mp h
    have hfinds := finds_of_search hsearch
    have htotal : total = found + 1 := hfinds.counted rfl
    refine ⟨hmatches, hdone, fun n hn => ?_, htotal, fun hlt => ?_⟩
    · exact hfinds.passed n (UInt64.le_iff_toNat_le.mpr (Nat.zero_le _)) hn
    · exact (congrArg UInt64.toNat htotal).trans (toNat_succ hlt)

/-- Mining ends without a block if it is cancelled at its start or no nonce does the work. -/
theorem mine_eq_none_iff : m.mine now index transactions previousHash = none ↔
    m.cancelled = true ∨ ∀ nonce, ((Block.unmined index previousHash now transactions
      m.difficulty m.id).withNonce nonce).workDone = false := by
  rw [mine]
  by_cases hcancelled : m.cancelled = true
  · simp [hcancelled]
  · rw [if_neg hcancelled, Option.map_eq_none_iff, search_eq_none_iff]
    constructor
    · intro hnone
      exact Or.inr fun nonce => hnone nonce (UInt64.le_iff_toNat_le.mpr (Nat.zero_le _))
    · intro hnone nonce _
      exact hnone.resolve_left hcancelled nonce

end

/-- A block that mining returns has the given content and the least nonce that does the work, and
every chain whose last block has the index before it and the given hash takes it. Mining returns
none if it is cancelled at its start or no nonce does the work, and in no other case. -/
theorem mine_first (m : Miner) (now index : UInt64) (transactions : List Transaction)
    (previousHash : String) :
    (m.mine now index transactions previousHash = none ↔
      m.cancelled = true ∨ ∀ nonce, ((Block.unmined index previousHash now transactions
        m.difficulty m.id).withNonce nonce).workDone = false) ∧
      ∀ mined, m.mine now index transactions previousHash = some mined →
        m.Yields now index transactions previousHash mined.block ∧ mined.IsFirst ∧
          ∀ (c : Chain) (tail : Block), c.tail? = some tail → tail.index = index - 1 →
            tail.hash = previousHash →
            c.append mined.block = .ok { c with blocks := c.blocks ++ [mined.block] } := by
  refine ⟨mine_eq_none_iff, fun mined h => ?_⟩
  have hyields := yields_of_mine h
  refine ⟨hyields, isFirst_of_mine h, ?_⟩
  rintro c tail htail hindex rfl
  apply Chain.append_of_yields htail
  rw [hindex, UInt64.sub_add_cancel]
  exact hyields

/-- A candidate on the first block of which the second nonce does the work. -/
def secondTry : Block := Block.unmined 1 Block.genesis.hash 0 [] 2 "miner"

theorem mine_secondTry : (create "miner" 2).mine 0 1 [] Block.genesis.hash =
    some ⟨secondTry.withNonce 1, 2⟩ := by
  have hfirst : hits secondTry secondTry.digest 0 = false := by
    rw [hits, secondTry, Block.hash_genesis]
    decide +kernel
  have hsecond : hits secondTry secondTry.digest 1 = true := by
    rw [hits, secondTry, Block.hash_genesis]
    decide +kernel
  have hsearch : search secondTry secondTry.digest 0 0 =
      some (1, secondTry.hashWith 1 secondTry.digest, 2) := by
    rw [search_of_not_hits hfirst (by decide)]
    exact search_of_hits hsecond
  change (search secondTry secondTry.digest 0 0).map _ = _
  rw [hsearch]
  rfl

theorem mine_first_secondTry :
    (create "miner" 2).cancel.mine 0 1 [] Block.genesis.hash = none ∧
      (create "miner" 2).mine 0 1 [] Block.genesis.hash = some ⟨secondTry.withNonce 1, 2⟩ ∧
      Mined.IsFirst ⟨secondTry.withNonce 1, 2⟩ ∧
      Chain.start.append (secondTry.withNonce 1) =
        .ok ⟨[Block.genesis, secondTry.withNonce 1], []⟩ := by
  obtain ⟨-, hfound⟩ := mine_first (create "miner" 2) 0 1 [] Block.genesis.hash
  obtain ⟨-, hleast, htaken⟩ := hfound _ mine_secondTry
  have hcancelled := (mine_first (create "miner" 2).cancel 0 1 [] Block.genesis.hash).1.mpr
    (Or.inl rfl)
  exact ⟨hcancelled, mine_secondTry, hleast, htaken Chain.start Block.genesis rfl rfl rfl⟩

end Miner

end WorkLedger
