import WorkLedger.Chain.Replacement
import WorkLedger.Proofs.Chain.Sound

/-!
# Replacements of sound chains

A replacement is anchored when it brings a whole chain from index zero on, or
leaves the first block in place. An anchored replacement keeps a chain sound,
whatever its blocks are and whatever became of the chain since the replacement
was decided on: a whole chain is checked before the swap, and the blocks of a
splice are appended to what is left of a sound chain.
-/

namespace WorkLedger

namespace Replacement

/-- A replacement is anchored when the chain that it brings opens with index
zero, or when it starts behind the first block. -/
def IsAnchored : Replacement → Prop
  | full bs => ∀ first, bs.head? = some first → first.index = 0
  | splice start _ => start ≠ 0

/-- Blocks that may take the place of a whole chain: a sequence of genuine
blocks. -/
def isComplete (bs : List Block) : Bool :=
  Block.isSequence bs && bs.all Block.isGenuine

theorem isComplete_iff (bs : List Block) :
    isComplete bs = true ↔
      Block.isSequence bs = true ∧ ∀ b ∈ bs, b.isGenuine = true := by
  simp [isComplete]

theorem find?_eq_none_iff (bs : List Block) :
    (bs.find? fun b => !b.hashMatches || !b.workDone) = none ↔
      ∀ b ∈ bs, b.isGenuine = true := by
  simp [Block.isGenuine]

theorem appendUnlinked_of_isGenuine (c : Chain) {b : Block} (h : b.isGenuine = true) :
    appendUnlinked c b = .ok { c with blocks := c.blocks ++ [b] } := by
  obtain ⟨hmatches, hdone⟩ := (Block.isGenuine_iff b).mp h
  simp [appendUnlinked, hmatches, hdone]

/-- Genuine blocks are all appended if their links do not matter. -/
theorem rebuild_of_isGenuine (c : Chain) {bs : List Block}
    (h : ∀ b ∈ bs, b.isGenuine = true) :
    rebuild c bs = ⟨{ c with blocks := c.blocks ++ bs }, .ok bs.length⟩ := by
  induction bs generalizing c with
  | nil => simp [rebuild]
  | cons b rest ih =>
      obtain ⟨hb, hrest⟩ := List.forall_mem_cons.mp h
      rw [rebuild, appendUnlinked_of_isGenuine c hb]
      simp [ih { c with blocks := c.blocks ++ [b] } hrest, Except.map]

/-- A complete chain is swapped in, and nothing on the way can fail. -/
theorem applyFull_of_isComplete (c : Chain) {bs : List Block} (hne : bs ≠ [])
    (h : isComplete bs = true) :
    applyFull c bs = ⟨{ c with blocks := bs }, .ok bs.length⟩ := by
  obtain ⟨hsequence, hgenuine⟩ := (isComplete_iff bs).mp h
  cases bs with
  | nil => exact absurd rfl hne
  | cons b rest =>
      simp only [applyFull, (find?_eq_none_iff (b :: rest)).mpr hgenuine, hsequence, if_true]
      rw [rebuild_of_isGenuine _ hgenuine]
      rfl

/-- A chain that is not complete is refused before anything has changed. -/
theorem applyFull_of_not_isComplete (c : Chain) {bs : List Block} (hne : bs ≠ [])
    (h : ¬ isComplete bs = true) : ∃ e, applyFull c bs = ⟨c, .error e⟩ := by
  cases bs with
  | nil => exact absurd rfl hne
  | cons b rest =>
      cases hfind : (b :: rest).find? fun b => !b.hashMatches || !b.workDone with
      | some bad => exact ⟨.invalidHash bad.index, by simp only [applyFull, hfind]⟩
      | none =>
          have hgenuine := (find?_eq_none_iff (b :: rest)).mp hfind
          have hsequence : ¬ Block.isSequence (b :: rest) = true := fun hsequence =>
            h ((isComplete_iff _).mpr ⟨hsequence, hgenuine⟩)
          exact ⟨.invalidLink b.index b.index,
            by simp only [applyFull, hfind, if_neg hsequence]⟩

/-- A whole chain is swapped exactly if the new one is complete. -/
theorem applyFull_chain (c : Chain) (bs : List Block) :
    (applyFull c bs).chain =
      if isComplete bs = true ∧ bs ≠ [] then { c with blocks := bs } else c := by
  by_cases hne : bs = []
  · subst hne
    simp [applyFull]
  · by_cases hcomplete : isComplete bs = true
    · rw [applyFull_of_isComplete c hne hcomplete, if_pos ⟨hcomplete, hne⟩]
    · obtain ⟨e, he⟩ := applyFull_of_not_isComplete c hne hcomplete
      rw [he, if_neg fun h => hcomplete h.1]

/-- What a splice keeps of a chain. -/
def kept (c : Chain) (start : UInt64) : Chain :=
  { c with blocks := c.blocks.takeWhile fun b => b.index < start }

theorem applySplice_eq_error {c : Chain} {start : UInt64} {bs : List Block}
    {e : ChainError} (hrefusal : ((kept c start).extend bs).refusal = some e)
    (htaken : ((kept c start).extend bs).taken = 0) :
    applySplice c start bs = ⟨c, .error e⟩ := by
  unfold kept at hrefusal htaken
  simp only [applySplice, hrefusal, htaken, if_true]

theorem applySplice_eq_ok {c : Chain} {start : UInt64} {bs : List Block}
    (h : ((kept c start).extend bs).refusal = none ∨
      ((kept c start).extend bs).taken ≠ 0) :
    applySplice c start bs =
      ⟨((kept c start).extend bs).chain, .ok ((kept c start).extend bs).taken⟩ := by
  unfold kept at h ⊢
  rcases h with hrefusal | htaken
  · simp only [applySplice, hrefusal]
  · simp only [applySplice, if_neg htaken]
    split <;> rfl

/-- A splice leaves the chain as it was, or appends blocks to what it keeps. -/
theorem applySplice_chain (c : Chain) (start : UInt64) (bs : List Block) :
    (applySplice c start bs).chain = c ∨
      (applySplice c start bs).chain = ((kept c start).extend bs).chain := by
  cases hrefusal : ((kept c start).extend bs).refusal with
  | none =>
      rw [applySplice_eq_ok (Or.inl hrefusal)]
      exact Or.inr rfl
  | some e =>
      by_cases htaken : ((kept c start).extend bs).taken = 0
      · rw [applySplice_eq_error hrefusal htaken]
        exact Or.inl rfl
      · rw [applySplice_eq_ok (Or.inr htaken)]
        exact Or.inr rfl

/-- Genuine blocks that continue what a splice keeps are all taken. -/
theorem applySplice_of_isChain {c : Chain} {start : UInt64} {bs : List Block}
    (hgenuine : ∀ b ∈ bs, b.isGenuine = true)
    (hchain : ((kept c start).blocks ++ bs).IsChain
      fun previous b => b.follows previous = true) :
    applySplice c start bs =
      ⟨{ c with blocks := (kept c start).blocks ++ bs }, .ok bs.length⟩ := by
  have hextend := Chain.extend_eq_of_isChain hgenuine hchain
  have hrefusal : ((kept c start).extend bs).refusal = none := by rw [hextend]
  rw [applySplice_eq_ok (Or.inl hrefusal), hextend]
  rfl

end Replacement

namespace Chain

/-- What a replacement leaves in a chain was there or is among its blocks. -/
theorem mem_replace {c : Chain} {r : Replacement} {b : Block}
    (h : b ∈ (c.replace r).chain.blocks) : b ∈ c.blocks ∨ b ∈ r.blocks := by
  cases r with
  | full bs =>
      change b ∈ (Replacement.applyFull c bs).chain.blocks at h
      rw [Replacement.applyFull_chain] at h
      split at h
      · exact Or.inr h
      · exact Or.inl h
  | splice start bs =>
      change b ∈ (Replacement.applySplice c start bs).chain.blocks at h
      rcases Replacement.applySplice_chain c start bs with hsame | hextended
      · rw [hsame] at h
        exact Or.inl h
      · rw [hextended] at h
        rcases mem_extend h with hkept | hnew
        · have hbeginning := List.takeWhile_prefix (l := c.blocks)
            fun b => decide (b.index < start)
          exact Or.inl (hbeginning.subset hkept)
        · exact Or.inr hnew

theorem Sound.first?_kept {c : Chain} (h : c.Sound) {start : UInt64}
    (hstart : start ≠ 0) : (Replacement.kept c start).first? = c.first? := by
  obtain ⟨first, hfirst, hzero⟩ := h.opens
  have hlt : (0 : UInt64) < start := UInt64.pos_iff_ne_zero.mpr hstart
  have hhead := List.head?_takeWhile (p := fun b => decide (b.index < start)) (l := c.blocks)
  rw [← first?, hfirst] at hhead
  rw [hfirst, first?, Replacement.kept, hhead]
  simp [Option.filter, hzero, hlt]

/-- A splice that starts behind the first block keeps a sound chain. -/
theorem Sound.kept {c : Chain} (h : c.Sound) {start : UInt64} (hstart : start ≠ 0) :
    (Replacement.kept c start).Sound := by
  obtain ⟨first, hfirst, _⟩ := h.opens
  have hbeginning := List.takeWhile_prefix (l := c.blocks) fun b => decide (b.index < start)
  apply h.of_isPrefix hbeginning
  intro hnil
  have hkept := h.first?_kept hstart
  rw [hfirst, first?, Replacement.kept, hnil] at hkept
  cases hkept

/-- An anchored replacement keeps a chain sound. -/
theorem Sound.replace {c : Chain} (h : c.Sound) {r : Replacement}
    (hr : r.IsAnchored) : (c.replace r).chain.Sound := by
  cases r with
  | full bs =>
      change (Replacement.applyFull c bs).chain.Sound
      rw [Replacement.applyFull_chain]
      by_cases hbs : Replacement.isComplete bs = true ∧ bs ≠ []
      · rw [if_pos hbs]
        obtain ⟨hsequence, hgenuine⟩ := (Replacement.isComplete_iff bs).mp hbs.1
        refine ⟨⟨bs.head hbs.2, List.head?_eq_some_head hbs.2, ?_⟩, hsequence, hgenuine⟩
        exact hr _ (List.head?_eq_some_head hbs.2)
      · rw [if_neg hbs]
        exact h
  | splice start bs =>
      change (Replacement.applySplice c start bs).chain.Sound
      rcases Replacement.applySplice_chain c start bs with hsame | hextended
      · rw [hsame]
        exact h
      · rw [hextended]
        exact (h.kept hr).extend bs

end Chain

end WorkLedger
