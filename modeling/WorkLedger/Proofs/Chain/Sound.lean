import WorkLedger.Chain.Basic
import WorkLedger.Proofs.Block.Sequence

/-!
# Sound chains

A chain is sound when it opens with index zero, every block follows the one
before it, and every block is genuine. Indices are words, so soundness puts the
block with index `i` at position `i` only up to the size of a word
(`Sound.index_eq`); on a chain that fits into memory nothing wraps and the two
are equal (`Sound.toNat_index`).

The chain that holds only the first block is sound, and appending keeps a chain
sound, whether or not all of the blocks are taken.
-/

namespace WorkLedger

namespace Chain

/-- A chain is sound when it opens with index zero, every block follows the one
before it, and every block is genuine. -/
structure Sound (c : Chain) : Prop where
  opens : ∃ first, c.first? = some first ∧ first.index = 0
  isValid : c.isValid = true
  genuine : ∀ b ∈ c.blocks, b.isGenuine = true

/-- A chain fits into memory, so that its number of blocks is a word. -/
def Fits (c : Chain) : Prop := c.blocks.length < UInt64.size

/-- The blocks of a chain stand in place: each at the position of its index,
with the hash of its content, the work of its difficulty, and the hash of the
block before it. -/
structure InPlace (c : Chain) : Prop where
  ne_nil : c.blocks ≠ []
  index : ∀ (i : ℕ) (b : Block), c.blocks[i]? = some b → b.index.toNat = i
  hash : ∀ b ∈ c.blocks, b.hash = b.contentHash
  work : ∀ b ∈ c.blocks, Difficulty.metByHex b.hash b.difficulty = true
  link : ∀ (i : ℕ) (previous b : Block), c.blocks[i]? = some previous →
    c.blocks[i + 1]? = some b → b.previousHash = previous.hash

theorem sound_start : start.Sound := by
  refine ⟨⟨Block.genesis, rfl, rfl⟩, rfl, ?_⟩
  intro b hb
  rw [List.mem_singleton.mp hb]
  exact Block.isGenuine_genesis

namespace Sound

theorem ne_nil {c : Chain} (h : c.Sound) : c.blocks ≠ [] := by
  obtain ⟨first, hfirst, _⟩ := h.opens
  intro hnil
  rw [first?, hnil] at hfirst
  cases hfirst

theorem isChain {c : Chain} (h : c.Sound) :
    c.blocks.IsChain fun previous b => b.follows previous = true :=
  (Block.isSequence_iff_isChain c.blocks).mp h.isValid

theorem index_eq {c : Chain} (h : c.Sound) {i : ℕ} {b : Block}
    (hb : c.blocks[i]? = some b) : b.index = UInt64.ofNat i := by
  obtain ⟨first, hfirst, hzero⟩ := h.opens
  have hindex := Block.index_of_isSequence h.isValid hfirst hb
  rw [hindex, hzero, UInt64.zero_add]

theorem toNat_index {c : Chain} (h : c.Sound) (hfits : c.Fits) {i : ℕ}
    {b : Block} (hb : c.blocks[i]? = some b) : b.index.toNat = i := by
  have hlt : i < c.blocks.length := (List.getElem?_eq_some_iff.mp hb).1
  rw [h.index_eq hb]
  exact UInt64.toNat_ofNat_of_lt' (lt_trans hlt hfits)

theorem follows {c : Chain} (h : c.Sound) {i : ℕ} {previous b : Block}
    (hprevious : c.blocks[i]? = some previous)
    (hb : c.blocks[i + 1]? = some b) : b.follows previous = true :=
  Block.follows_of_isSequence h.isValid hprevious hb

/-- Looking a block up by its index is looking it up by its position. -/
theorem get?_eq {c : Chain} (h : c.Sound) (index : UInt64) :
    c.get? index = c.blocks[index.toNat]? := by
  unfold get?
  cases hb : c.blocks[index.toNat]? with
  | none => rfl
  | some b =>
      have hindex : b.index = index := by
        rw [h.index_eq hb, UInt64.ofNat_toNat]
      simp [Option.filter, hindex]

/-- Soundness is about the blocks alone. -/
theorem of_blocks_eq {c d : Chain} (h : c.Sound) (hblocks : d.blocks = c.blocks) :
    d.Sound := by
  obtain ⟨blocks, pending⟩ := d
  obtain rfl : blocks = c.blocks := hblocks
  exact ⟨h.opens, h.isValid, h.genuine⟩

/-- The beginning of a sound chain is sound. -/
theorem of_isPrefix {c : Chain} (h : c.Sound) {bs : List Block}
    (hbs : bs <+: c.blocks) (hne : bs ≠ []) :
    Sound { c with blocks := bs } := by
  obtain ⟨first, hfirst, hzero⟩ := h.opens
  refine ⟨⟨first, ?_, hzero⟩, ?_, ?_⟩
  · obtain ⟨rest, hrest⟩ := hbs
    rw [first?, ← hrest, List.head?_append_of_ne_nil bs hne] at hfirst
    exact hfirst
  · have hbeginning := List.IsChain.prefix h.isChain hbs
    exact (Block.isSequence_iff_isChain bs).mpr hbeginning
  · intro b hb
    exact h.genuine b (hbs.subset hb)

theorem inPlace {c : Chain} (h : c.Sound) (hfits : c.Fits) : c.InPlace := by
  refine ⟨h.ne_nil, fun i b hb => h.toNat_index hfits hb, ?_, ?_, ?_⟩
  · intro b hb
    have hmatches := ((Block.isGenuine_iff b).mp (h.genuine b hb)).1
    rw [Block.hashMatches, beq_iff_eq] at hmatches
    exact hmatches
  · intro b hb
    exact ((Block.isGenuine_iff b).mp (h.genuine b hb)).2
  · intro i previous b hprevious hb
    exact ((Block.follows_iff b previous).mp (h.follows hprevious hb)).2.1

/-- If no index is the largest word, the chain fits into memory. -/
theorem fits_of_index_lt {c : Chain} (h : c.Sound)
    (hindex : ∀ b ∈ c.blocks, b.index.toNat < UInt64.size - 1) : c.Fits := by
  by_contra hlong
  have hlt : UInt64.size - 1 < c.blocks.length :=
    lt_of_lt_of_le (by decide) (not_lt.mp hlong)
  have hget := List.getElem?_eq_getElem hlt
  have hbound := hindex _ (List.getElem_mem hlt)
  rw [h.index_eq hget] at hbound
  exact absurd hbound (by decide)

end Sound

theorem InPlace.index_eq {c : Chain} (h : c.InPlace) {i : ℕ} {b : Block}
    (hb : c.blocks[i]? = some b) : b.index = UInt64.ofNat i := by
  rw [← h.index i b hb, UInt64.ofNat_toNat]

theorem InPlace.sound {c : Chain} (h : c.InPlace) : c.Sound := by
  have hgenuine : ∀ b ∈ c.blocks, b.isGenuine = true := by
    intro b hb
    rw [Block.isGenuine_iff, Block.hashMatches, beq_iff_eq]
    exact ⟨h.hash b hb, h.work b hb⟩
  refine ⟨⟨c.blocks.head h.ne_nil, List.head?_eq_some_head h.ne_nil, ?_⟩, ?_, hgenuine⟩
  · have hget := List.head?_eq_some_head h.ne_nil
    rw [List.head?_eq_getElem?] at hget
    exact UInt64.toNat_inj.mp (h.index 0 _ hget)
  · apply (Block.isSequence_iff_isChain c.blocks).mpr
    apply List.isChain_iff_getElem.mpr
    intro i hlt
    have hprevious := List.getElem?_eq_getElem (Nat.lt_of_succ_lt hlt)
    have hb := List.getElem?_eq_getElem hlt
    rw [Block.follows_iff]
    refine ⟨?_, h.link i _ _ hprevious hb, ?_⟩
    · rw [h.index_eq hb, h.index_eq hprevious, UInt64.ofNat_add]
      rfl
    · exact ((Block.isGenuine_iff _).mp (hgenuine _ (List.getElem_mem hlt))).1

/-- A block is taken when it is genuine and follows the last block, if there is
one. -/
theorem refusal?_eq_none_iff (c : Chain) (b : Block) :
    c.refusal? b = none ↔
      b.isGenuine = true ∧ ∀ tail, c.tail? = some tail → b.follows tail = true := by
  unfold refusal?
  by_cases hgenuine : b.isGenuine = true
  · obtain ⟨hmatches, hdone⟩ := (Block.isGenuine_iff b).mp hgenuine
    cases htail : c.tail? with
    | none => simp [hmatches, hdone, hgenuine]
    | some tail =>
        simp [hmatches, hdone, hgenuine, Block.follows_iff, and_comm]
  · have hfails : (!b.hashMatches || !b.workDone) = true := by
      simpa [Block.isGenuine, imp_iff_not_or] using hgenuine
    simp [hfails, hgenuine]

theorem append_of_refusal?_eq_none {c : Chain} {b : Block}
    (h : c.refusal? b = none) :
    c.append b = .ok { c with blocks := c.blocks ++ [b] } := by
  unfold append
  rw [h]

/-- Appending a block keeps a chain sound. -/
theorem Sound.append {c d : Chain} (h : c.Sound) {b : Block}
    (hd : c.append b = .ok d) : d.Sound := by
  obtain ⟨hrefusal, rfl⟩ := append_eq_ok hd
  obtain ⟨hgenuine, hfollows⟩ := (refusal?_eq_none_iff c b).mp hrefusal
  obtain ⟨first, hfirst, hzero⟩ := h.opens
  refine ⟨⟨first, ?_, hzero⟩, ?_, ?_⟩
  · change (c.blocks ++ [b]).head? = some first
    rw [List.head?_append_of_ne_nil c.blocks h.ne_nil]
    exact hfirst
  · apply (Block.isSequence_iff_isChain (c.blocks ++ [b])).mpr
    apply h.isChain.append (List.isChain_singleton b)
    intro tail htail next hnext
    obtain rfl : b = next := by simpa using hnext
    exact hfollows tail htail
  · intro x hx
    rcases List.mem_append.mp hx with hold | hnew
    · exact h.genuine x hold
    · rw [List.mem_singleton.mp hnew]
      exact hgenuine

theorem append_onTop {c : Chain} {tail : Block} (htail : c.tail? = some tail)
    (timestamp : UInt64) :
    c.append (tail.onTop timestamp) =
      .ok { c with blocks := c.blocks ++ [tail.onTop timestamp] } := by
  apply append_of_refusal?_eq_none
  rw [refusal?_eq_none_iff]
  refine ⟨tail.isGenuine_onTop timestamp, ?_⟩
  intro last hlast
  obtain rfl : tail = last := Option.some.inj (htail.symm.trans hlast)
  exact tail.follows_onTop timestamp

theorem Sound.onTop {c : Chain} (h : c.Sound) {tail : Block} (htail : c.tail? = some tail)
    (timestamp : UInt64) :
    Sound { c with blocks := c.blocks ++ [tail.onTop timestamp] } :=
  h.append (append_onTop htail timestamp)

theorem extend_cons_of_error {c : Chain} {b : Block} {rest : List Block}
    {e : ChainError} (h : c.append b = .error e) :
    c.extend (b :: rest) = ⟨c, 0, some e⟩ := by
  rw [extend, h]

theorem extend_cons_of_ok {c d : Chain} {b : Block} {rest : List Block}
    (h : c.append b = .ok d) :
    c.extend (b :: rest) =
      { d.extend rest with taken := (d.extend rest).taken + 1 } := by
  rw [extend, h]

/-- Appending a list of blocks keeps a chain sound, whichever of them are
refused. -/
theorem Sound.extend {c : Chain} (h : c.Sound) (bs : List Block) :
    (c.extend bs).chain.Sound := by
  induction bs generalizing c with
  | nil => exact h
  | cons b rest ih =>
      cases hb : c.append b with
      | error e =>
          rw [extend_cons_of_error hb]
          exact h
      | ok d =>
          rw [extend_cons_of_ok hb]
          exact ih (h.append hb)

/-- Appending a list of blocks takes some of them from its front, and leaves
what was there. -/
theorem chain_extend (c : Chain) (bs : List Block) :
    (c.extend bs).chain =
      { c with blocks := c.blocks ++ bs.take (c.extend bs).taken } := by
  induction bs generalizing c with
  | nil => simp
  | cons b rest ih =>
      cases hb : c.append b with
      | error e =>
          rw [extend_cons_of_error hb]
          simp
      | ok d =>
          obtain ⟨_, rfl⟩ := append_eq_ok hb
          rw [extend_cons_of_ok hb]
          change ((Chain.mk (c.blocks ++ [b]) c.pending).extend rest).chain = _
          rw [ih]
          simp

theorem taken_extend_le (c : Chain) (bs : List Block) : (c.extend bs).taken ≤ bs.length := by
  induction bs generalizing c with
  | nil => exact le_rfl
  | cons b rest ih =>
      cases hb : c.append b with
      | error e =>
          rw [extend_cons_of_error hb]
          exact Nat.zero_le _
      | ok d =>
          rw [extend_cons_of_ok hb]
          exact Nat.succ_le_succ (ih d)

/-- The blocks that were taken are the last ones afterwards. -/
theorem drop_extend (c : Chain) (bs : List Block) :
    (c.extend bs).chain.blocks.drop ((c.extend bs).chain.blocks.length - (c.extend bs).taken) =
      bs.take (c.extend bs).taken := by
  have hle := c.taken_extend_le bs
  rw [chain_extend, List.length_append, List.length_take_of_le hle, Nat.add_sub_cancel,
    List.drop_left]

theorem mem_extend {c : Chain} {bs : List Block} {b : Block}
    (h : b ∈ (c.extend bs).chain.blocks) : b ∈ c.blocks ∨ b ∈ bs := by
  rw [chain_extend] at h
  rcases List.mem_append.mp h with hold | hnew
  · exact Or.inl hold
  · exact Or.inr (List.mem_of_mem_take hnew)

theorem first?_extend {c : Chain} (hne : c.blocks ≠ []) (bs : List Block) :
    (c.extend bs).chain.first? = c.first? := by
  rw [chain_extend]
  exact List.head?_append_of_ne_nil c.blocks hne

/-- Genuine blocks that continue a chain are all taken. -/
theorem extend_eq_of_isChain {c : Chain} {bs : List Block}
    (hgenuine : ∀ b ∈ bs, b.isGenuine = true)
    (hchain : (c.blocks ++ bs).IsChain fun previous b => b.follows previous = true) :
    c.extend bs = ⟨{ c with blocks := c.blocks ++ bs }, bs.length, none⟩ := by
  induction bs generalizing c with
  | nil => simp
  | cons b rest ih =>
      have hrefusal : c.refusal? b = none := by
        rw [refusal?_eq_none_iff]
        refine ⟨hgenuine b (by simp), ?_⟩
        intro tail htail
        exact (List.isChain_append.mp hchain).2.2 tail htail b (by simp)
      have happend := append_of_refusal?_eq_none hrefusal
      rw [extend_cons_of_ok happend, ih]
      · simp
      · intro x hx
        exact hgenuine x (List.mem_cons_of_mem b hx)
      · simpa using hchain

end Chain

end WorkLedger
