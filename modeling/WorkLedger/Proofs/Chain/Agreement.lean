import WorkLedger.Proofs.Block.History
import WorkLedger.Proofs.Chain.Weight

/-!
# Agreement of two chains

Two chains agree below a position when their blocks there have the same hashes
and difficulties. If no hashed texts collide, one common hash is enough: the
links determine all the blocks before it as far as they are hashed, so the chains
agree up to there.

The blocks of one chain up to a common hash, followed by those of the other one
behind it, are the chain `joined`. It is sound and weighs as much as the other
chain.
-/

namespace WorkLedger

/-- The hash and the difficulty of a block. -/
def Block.stamp (b : Block) : String × UInt32 := (b.hash, b.difficulty)

theorem Block.hashes_of_stamps {bs ds : List Block} (h : bs.map stamp = ds.map stamp) :
    bs.map Block.hash = ds.map Block.hash := by
  have hfirst := congrArg (List.map Prod.fst) h
  rw [List.map_map, List.map_map] at hfirst
  exact hfirst

theorem Block.difficulties_of_stamps {bs ds : List Block} (h : bs.map stamp = ds.map stamp) :
    bs.map Block.difficulty = ds.map Block.difficulty := by
  have hsecond := congrArg (List.map Prod.snd) h
  rw [List.map_map, List.map_map] at hsecond
  exact hsecond

namespace Chain

/-- Two chains agree below a position if their blocks there have the same hashes and the same
difficulties. -/
def AgreeBelow (l r : Chain) (n : ℕ) : Prop :=
  (l.blocks.take n).map Block.stamp = (r.blocks.take n).map Block.stamp

/-- Chains with a common hash agree block by block up to it, if no hashed texts collide. -/
theorem forall₂_agree_of_hash {l r : Chain} (hl : l.InPlace) (hr : r.InPlace)
    (hfree : Block.CollisionFree (l.blocks ++ r.blocks)) {i : ℕ} {b d : Block}
    (hb : l.blocks[i]? = some b) (hd : r.blocks[i]? = some d) (hhash : b.hash = d.hash) :
    List.Forall₂ Block.Agree (l.blocks.take (i + 1)) (r.blocks.take (i + 1)) := by
  have hagree : ∀ x ∈ l.blocks, ∀ y ∈ r.blocks, x.hash = y.hash → Block.Agree x y := by
    intro x hx y hy hxy
    exact ⟨hfree.sameHeader (List.mem_append_left _ hx) (List.mem_append_right _ hy)
      (hl.hash x hx) (hr.hash y hy) hxy, hxy⟩
  exact Block.forall₂_agree_take hl.sound.isValid hr.sound.isValid hagree hb hd hhash

/-- Chains with a common hash agree up to it, if no hashed texts collide. -/
theorem agreeBelow_of_hash {l r : Chain} (hl : l.InPlace) (hr : r.InPlace)
    (hfree : Block.CollisionFree (l.blocks ++ r.blocks)) {i : ℕ} {b d : Block}
    (hb : l.blocks[i]? = some b) (hd : r.blocks[i]? = some d) (hhash : b.hash = d.hash) :
    AgreeBelow l r (i + 1) := by
  have htake := forall₂_agree_of_hash hl hr hfree hb hd hhash
  rw [AgreeBelow, ← List.forall₂_eq_eq_eq, List.forall₂_map_left_iff,
    List.forall₂_map_right_iff]
  exact htake.imp fun _ _ hxy => Prod.ext hxy.hash hxy.difficulty

/-- A chain weighs at least as much as one that it agrees with entirely. -/
theorem AgreeBelow.weight_le {l r : Chain} (h : AgreeBelow l r r.blocks.length)
    (hl : l.InPlace) (hlfits : l.Fits) (hr : r.InPlace) (hrfits : r.Fits) :
    r.weight ≤ l.weight := by
  unfold AgreeBelow at h
  rw [List.take_length] at h
  have hdifficulties := Block.difficulties_of_stamps h
  calc r.weight = totalWeight (r.blocks.map Block.difficulty) := hr.weight_eq hrfits
    _ ≤ totalWeight (r.blocks.map Block.difficulty ++
          (l.blocks.drop r.blocks.length).map Block.difficulty) :=
        totalWeight_le_append _ _
    _ = totalWeight (l.blocks.map Block.difficulty) := by
        rw [← hdifficulties, ← List.map_append, List.take_append_drop]
    _ = l.weight := (hl.weight_eq hlfits).symm

/-- The blocks of one chain below a position and those of another one from there
on. -/
def joined (l r : Chain) (n : ℕ) : Chain :=
  { l with blocks := l.blocks.take n ++ r.blocks.drop n }

theorem AgreeBelow.stamps_joined {l r : Chain} {n : ℕ} (h : AgreeBelow l r n) :
    (joined l r n).blocks.map Block.stamp = r.blocks.map Block.stamp := by
  rw [joined, List.map_append, h, ← List.map_append, List.take_append_drop]

section

variable {l r : Chain} (hl : l.InPlace) (hr : r.InPlace) {i : ℕ} {b d : Block}
  (hb : l.blocks[i]? = some b) (hd : r.blocks[i]? = some d) (hhash : b.hash = d.hash)

include hl hr hb hd hhash

/-- Behind a common hash one chain continues the other one. -/
theorem isChain_joined :
    (joined l r (i + 1)).blocks.IsChain fun previous b => b.follows previous = true := by
  refine List.isChain_append.mpr
    ⟨hl.sound.isChain.take _, hr.sound.isChain.drop _, ?_⟩
  intro x hx y hy
  have hlast : (l.blocks.take (i + 1)).getLast? = some b := by
    rw [List.take_add_one, hb]
    simp
  obtain rfl : b = x := Option.some.inj (hlast.symm.trans hx)
  have hnext : r.blocks[i + 1]? = some y := by
    rw [← List.head?_drop]
    exact hy
  have hfollows := (Block.follows_iff y d).mp (hr.sound.follows hd hnext)
  rw [Block.follows_iff, hl.index_eq hb, ← hr.index_eq hd, hhash]
  exact hfollows

theorem extend_joined :
    Chain.extend { l with blocks := l.blocks.take (i + 1) } (r.blocks.drop (i + 1)) =
      ⟨joined l r (i + 1), (r.blocks.drop (i + 1)).length, none⟩ := by
  apply extend_eq_of_isChain
  · intro x hx
    exact hr.sound.genuine x (List.mem_of_mem_drop hx)
  · exact isChain_joined hl hr hb hd hhash

theorem sound_joined : (joined l r (i + 1)).Sound := by
  have hne : l.blocks.take (i + 1) ≠ [] := by
    rw [List.take_add_one, hb]
    simp
  have hkept := hl.sound.of_isPrefix (List.take_prefix (i + 1) l.blocks) hne
  have hsound := hkept.extend (r.blocks.drop (i + 1))
  rw [extend_joined hl hr hb hd hhash] at hsound
  exact hsound

end

/-- A sound chain with the same hashes and difficulties weighs as much. -/
theorem weight_eq_of_stamps {c r : Chain} (hc : c.Sound) (hr : r.InPlace) (hfits : r.Fits)
    (h : c.blocks.map Block.stamp = r.blocks.map Block.stamp) : c.weight = r.weight := by
  have hlength : c.blocks.length = r.blocks.length := by
    simpa using congrArg List.length h
  have hcfits : c.Fits := by
    rw [Fits, hlength]
    exact hfits
  rw [(hc.inPlace hcfits).weight_eq hcfits, hr.weight_eq hfits,
    Block.difficulties_of_stamps h]

/-- Sound chains of one length that end with the same hash agree block by block, if no hashed
texts collide. -/
theorem forall₂_agree_of_tail {l r : Chain} (hl : l.InPlace) (hr : r.InPlace)
    (hfree : Block.CollisionFree (l.blocks ++ r.blocks))
    (hlength : l.blocks.length = r.blocks.length)
    (htail : l.tail?.map Block.hash = r.tail?.map Block.hash) :
    List.Forall₂ Block.Agree l.blocks r.blocks := by
  obtain ⟨i, hi⟩ : ∃ i, l.blocks.length = i + 1 :=
    Nat.exists_eq_succ_of_ne_zero (List.length_pos_iff.mpr hl.ne_nil).ne'
  have hlast : ∀ c : Chain, c.blocks.length = i + 1 → c.tail? = c.blocks[i]? := by
    intro c hc
    rw [tail?, List.getLast?_eq_getElem?, hc]
    rfl
  have hb := List.getElem?_eq_getElem (l := l.blocks) (i := i) (by omega)
  have hd := List.getElem?_eq_getElem (l := r.blocks) (i := i) (by omega)
  rw [hlast l hi, hlast r (hlength ▸ hi), hb, hd] at htail
  have hwhole := forall₂_agree_of_hash hl hr hfree hb hd (Option.some.inj htail)
  rwa [← hi, List.take_length, hlength, List.take_length] at hwhole

end Chain

namespace Block

theorem Agree.refl (b : Block) : Agree b b := ⟨⟨rfl, rfl, rfl, rfl, rfl, rfl⟩, rfl⟩

theorem Agree.trans {a b d : Block} (hab : Agree a b) (hbd : Agree b d) : Agree a d where
  index := hab.index.trans hbd.index
  previousHash := hab.previousHash.trans hbd.previousHash
  timestamp := hab.timestamp.trans hbd.timestamp
  difficulty := hab.difficulty.trans hbd.difficulty
  nonce := hab.nonce.trans hbd.nonce
  digest := hab.digest.trans hbd.digest
  hash := hab.hash.trans hbd.hash

section

variable {b d : Block} (h : Agree b d)

include h

theorem Agree.contentHash_eq : b.contentHash = d.contentHash := by
  simp only [contentHash, hashWith, headerText, headerChars, h.index, h.previousHash, h.timestamp,
    h.difficulty, h.nonce, h.digest]

theorem Agree.isGenuine_eq : b.isGenuine = d.isGenuine := by
  simp only [isGenuine, hashMatches, workDone, h.contentHash_eq, h.hash, h.difficulty]

theorem Agree.follows_eq {p q : Block} (hp : Agree p q) : b.follows p = d.follows q := by
  simp only [follows, hashMatches, h.contentHash_eq, h.index, h.previousHash, h.hash, hp.index,
    hp.hash]

end

section

variable {bs ds : List Block} (h : List.Forall₂ Agree bs ds)

include h

theorem exists_head?_of_agree {first : Block} (hfirst : ds.head? = some first) :
    ∃ b, bs.head? = some b ∧ Agree b first := by
  cases h with
  | nil => cases hfirst
  | cons hb _ =>
      obtain rfl := Option.some.inj hfirst
      exact ⟨_, rfl, hb⟩

theorem forall₂_agree_trans {fs : List Block} (h' : List.Forall₂ Agree ds fs) :
    List.Forall₂ Agree bs fs := by
  induction h generalizing fs with
  | nil => exact h'
  | cons hb _ ih =>
      cases h' with
      | cons hd hrest => exact .cons (hb.trans hd) (ih hrest)

theorem isSequence_of_agree : isSequence bs = isSequence ds := by
  induction h with
  | nil => rfl
  | cons hb hrest ih =>
      cases hrest with
      | nil => rfl
      | cons hnext _ => rw [isSequence_cons_cons, isSequence_cons_cons, hnext.follows_eq hb, ih]

theorem all_isGenuine_of_agree : bs.all isGenuine = ds.all isGenuine := by
  induction h with
  | nil => rfl
  | cons hb _ ih => rw [List.all_cons, List.all_cons, hb.isGenuine_eq, ih]

end

end Block

/-- Blocks that agree with those of a sound chain make up a sound chain. -/
theorem Chain.Sound.of_agree {c : Chain} (h : c.Sound) {bs : List Block}
    (hagree : List.Forall₂ Block.Agree bs c.blocks) : (Chain.ofBlocks bs).Sound where
  opens := by
    obtain ⟨first, hfirst, hzero⟩ := h.opens
    obtain ⟨b, hb, hsame⟩ := Block.exists_head?_of_agree hagree hfirst
    exact ⟨b, hb, hsame.index.trans hzero⟩
  isValid := (Block.isSequence_of_agree hagree).trans h.isValid
  genuine := by
    have hall := List.all_eq_true.mpr h.genuine
    rw [← Block.all_isGenuine_of_agree hagree] at hall
    exact List.all_eq_true.mp hall

end WorkLedger
