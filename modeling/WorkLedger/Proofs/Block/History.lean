import WorkLedger.Proofs.Block.Header
import WorkLedger.Proofs.Block.Sequence

/-!
# Histories and their last hash

A history is a sequence of blocks that opens with index zero and whose blocks
have the hashes of their content. Nothing is asked of the work in it, nor of the
hash that its first block links to.

Walking back from a common hash, the header of a block hands the common hash on
to the block before it. So two histories that end with the same hash have the
same headers all the way, unless two of their headers collide; and they are
equally long, because the header also holds the index.
-/

namespace WorkLedger

namespace Block

/-- Two blocks collide: their headers are hashed as different texts with the same
digest. -/
def Collide (b d : Block) : Prop :=
  b.headerText b.nonce b.digest ≠ d.headerText d.nonce d.digest ∧
    Sha256.hexOfText (b.headerText b.nonce b.digest) =
      Sha256.hexOfText (d.headerText d.nonce d.digest)

/-- Two blocks have the same hash and the same header. -/
structure Agree (b d : Block) : Prop extends SameHeader b d where
  hash : b.hash = d.hash

/-- A sequence of blocks that opens with index zero, whose blocks have the hashes
of their content, and whose positions are words. -/
structure IsHistory (bs : List Block) : Prop where
  opens : ∃ first, bs.head? = some first ∧ first.index = 0
  isSequence : isSequence bs = true
  hashMatches : ∀ b ∈ bs, b.hashMatches = true
  fits : bs.length ≤ UInt64.size

theorem agree_of_not_collide {b d : Block} (hb : b.hashMatches = true)
    (hd : d.hashMatches = true) (hfree : ¬ Collide b d) (h : b.hash = d.hash) :
    Agree b d := by
  rw [Block.hashMatches, beq_iff_eq] at hb hd
  have hcontent : b.contentHash = d.contentHash := by rw [← hb, ← hd, h]
  have htext : b.headerText b.nonce b.digest = d.headerText d.nonce d.digest := by
    by_contra hne
    exact hfree ⟨hne, hcontent⟩
  exact ⟨sameHeader_of_headerText htext, h⟩

theorem previousHash_of_isSequence {bs : List Block} (h : isSequence bs = true) {i : ℕ}
    {previous b : Block} (hprevious : bs[i]? = some previous)
    (hb : bs[i + 1]? = some b) : b.previousHash = previous.hash :=
  ((follows_iff b previous).mp (follows_of_isSequence h hprevious hb)).2.1

section

variable {as bs : List Block} (has : isSequence as = true) (hbs : isSequence bs = true)
  (hagree : ∀ a ∈ as, ∀ b ∈ bs, a.hash = b.hash → Agree a b)

include has hbs hagree

/-- Sequences whose blocks are determined by their hashes agree up to a common
hash. -/
theorem forall₂_agree_take {i : ℕ} {a b : Block} (ha : as[i]? = some a)
    (hb : bs[i]? = some b) (hhash : a.hash = b.hash) :
    List.Forall₂ Agree (as.take (i + 1)) (bs.take (i + 1)) := by
  have hhere := hagree a (List.mem_of_getElem? ha) b (List.mem_of_getElem? hb) hhash
  rw [List.take_add_one, List.take_add_one, ha, hb]
  induction i generalizing a b with
  | zero => simpa using hhere
  | succ i ih =>
      have hlta : i < as.length := Nat.lt_of_succ_lt (List.getElem?_eq_some_iff.mp ha).1
      have hltb : i < bs.length := Nat.lt_of_succ_lt (List.getElem?_eq_some_iff.mp hb).1
      have hgeta := List.getElem?_eq_getElem hlta
      have hgetb := List.getElem?_eq_getElem hltb
      have hbefore : as[i].hash = bs[i].hash := by
        rw [← previousHash_of_isSequence has hgeta ha,
          ← previousHash_of_isSequence hbs hgetb hb, hhere.previousHash]
      have hlast := hagree _ (List.getElem_mem hlta) _ (List.getElem_mem hltb) hbefore
      rw [List.take_add_one, List.take_add_one, hgeta, hgetb]
      exact List.rel_append (ih hgeta hgetb hbefore hlast) (by simpa using hhere)

end

namespace IsHistory

/-- The index of the last block tells how many blocks a history has. -/
theorem toNat_index_getLast {bs : List Block} (h : IsHistory bs) {b : Block}
    (hb : bs.getLast? = some b) : b.index.toNat + 1 = bs.length := by
  obtain ⟨first, hfirst, hzero⟩ := h.opens
  have hpos : 0 < bs.length := by
    cases bs with
    | nil => cases hfirst
    | cons _ _ => exact Nat.succ_pos _
  rw [List.getLast?_eq_getElem?] at hb
  have hlt : bs.length - 1 < UInt64.size := lt_of_lt_of_le (by omega) h.fits
  rw [index_of_isSequence h.isSequence hfirst hb, hzero, UInt64.zero_add,
    UInt64.toNat_ofNat_of_lt' hlt]
  omega

/-- Two histories that end with the same hash agree block by block, unless a
block of the one collides with a block of the other. -/
theorem agree_or_collide {as bs : List Block} (has : IsHistory as) (hbs : IsHistory bs)
    {a b : Block} (ha : as.getLast? = some a) (hb : bs.getLast? = some b)
    (hhash : a.hash = b.hash) :
    (∃ x ∈ as, ∃ y ∈ bs, Collide x y) ∨ List.Forall₂ Agree as bs := by
  by_cases hcollide : ∃ x ∈ as, ∃ y ∈ bs, Collide x y
  · exact Or.inl hcollide
  · right
    have hagree : ∀ x ∈ as, ∀ y ∈ bs, x.hash = y.hash → Agree x y := by
      intro x hx y hy
      apply agree_of_not_collide (has.hashMatches x hx) (hbs.hashMatches y hy)
      exact fun hxy => hcollide ⟨x, hx, y, hy, hxy⟩
    have hlast := hagree a (List.mem_of_getLast? ha) b (List.mem_of_getLast? hb) hhash
    have hlena := has.toNat_index_getLast ha
    have hlenb := hbs.toNat_index_getLast hb
    rw [List.getLast?_eq_getElem?, ← hlena, Nat.add_sub_cancel] at ha
    rw [List.getLast?_eq_getElem?, ← hlenb, Nat.add_sub_cancel, ← hlast.index] at hb
    have hwhole := forall₂_agree_take has.isSequence hbs.isSequence hagree ha hb hhash
    rw [← hlast.index] at hlenb
    rwa [hlena, List.take_length, ← hlena, hlenb, List.take_length] at hwhole

end IsHistory

/-- The first block of a history that links to a text with colons. -/
def colonFirst : Block := unmined 0 "3:0:0" 5 [] 9 "miner"

/-- A history without any work in it. -/
def idleHistory : List Block := [colonFirst, colonFirst.onTop 8]

/-- The same history under the name of another miner. -/
def renamedHistory : List Block := idleHistory.map fun b => { b with minerId := "other" }

theorem isHistory_idle : IsHistory idleHistory where
  opens := ⟨colonFirst, rfl, rfl⟩
  isSequence := by
    rw [idleHistory, isSequence_cons_cons, follows_onTop]
    rfl
  hashMatches := by
    simp only [idleHistory, List.forall_mem_cons]
    exact ⟨hashMatches_unmined _ _ _ _ _ _, hashMatches_unmined _ _ _ _ _ _,
      fun _ hb => absurd hb List.not_mem_nil⟩
  fits := by decide

theorem isHistory_renamed : IsHistory renamedHistory where
  opens := ⟨_, rfl, rfl⟩
  isSequence := isHistory_idle.isSequence
  hashMatches := by
    intro b hb
    obtain ⟨d, hd, rfl⟩ := List.mem_map.mp hb
    exact isHistory_idle.hashMatches d hd
  fits := by decide

theorem agree_or_collide_renamed :
    IsHistory idleHistory ∧ IsHistory renamedHistory ∧
      ((∃ x ∈ idleHistory, ∃ y ∈ renamedHistory, Collide x y) ∨
        List.Forall₂ Agree idleHistory renamedHistory) :=
  ⟨isHistory_idle, isHistory_renamed,
    isHistory_idle.agree_or_collide isHistory_renamed rfl rfl rfl⟩

end Block

end WorkLedger
