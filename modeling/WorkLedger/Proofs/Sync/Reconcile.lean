import WorkLedger.Proofs.Chain.Replacement
import WorkLedger.Sync.Reconciler

/-!
# What a candidate leads to

A candidate changes the chain at once only by being appended to it. Otherwise
the chain stays the same, and if local blocks have to give way the outcome is a
replacement of one of two shapes: the whole candidate, which then opens with
index zero, or a splice from the index of its first block on. Both shapes are
anchored, so neither a candidate nor a replacement that it led to, applied to
whatever chain is there by then, makes a sound chain unsound.

A range that is asked for ends with the candidate, and starts at one of three
indices. Blocks are discarded exactly if they are no sequence, or if the chain
knows all of them.
-/

namespace WorkLedger

namespace Reconciler

theorem isKnown_eq_true_iff (c : Chain) (candidate : List Block) :
    isKnown c candidate = true ↔
      ∀ b ∈ candidate, ∃ known, c.get? b.index = some known ∧ known.hash = b.hash := by
  simp only [isKnown, List.all_eq_true, Option.any_eq_true, beq_iff_eq]

/-- A candidate is not known if one of its blocks has another hash than the
local block with its index, or there is no such block. -/
theorem isKnown_eq_false {c : Chain} {candidate : List Block} {b : Block}
    (hb : b ∈ candidate)
    (hhash : ∀ known, c.get? b.index = some known → known.hash ≠ b.hash) :
    isKnown c candidate = false := by
  rw [Bool.eq_false_iff]
  intro hall
  obtain ⟨known, hget, hsame⟩ := (isKnown_eq_true_iff c candidate).mp hall b hb
  exact hhash known hget hsame

/-- Without blocks, or if they are no sequence, a candidate is discarded. -/
theorem reconcile_of_not_isSequence (policy : Reconciler) (c : Chain) {candidate : List Block}
    (h : candidate = [] ∨ Block.isSequence candidate = false) :
    policy.reconcile c candidate = (.discarded, c) := by
  rcases h with rfl | hbroken
  · rfl
  · unfold reconcile
    split
    · rw [hbroken]
      rfl
    · rfl

/-- Any other candidate has a first and a last block. -/
theorem exists_ends_of_isSequence {candidate : List Block}
    (h : ¬ (candidate = [] ∨ Block.isSequence candidate = false)) :
    Block.isSequence candidate = true ∧
      ∃ first last, candidate.head? = some first ∧ candidate.getLast? = some last := by
  obtain ⟨hne, hsequence⟩ := not_or.mp h
  exact ⟨Bool.not_eq_false _ ▸ hsequence, _, _, List.head?_eq_some_head hne,
    List.getLast?_eq_some_getLast hne⟩

/-- A sequence of blocks, on a chain without blocks, is taken as a whole or asked for from the
beginning. -/
theorem reconcile_of_tail_eq_none (policy : Reconciler) {c : Chain} {first last : Block}
    {candidate : List Block} (htail : c.tail? = none) (hfirst : candidate.head? = some first)
    (hlast : candidate.getLast? = some last)
    (hsequence : Block.isSequence candidate = true) :
    policy.reconcile c candidate =
      if first.index = 0 then (.replace (.full candidate), c)
      else (.requestRange ⟨0, last.index⟩, c) := by
  simp only [reconcile, hfirst, hlast, hsequence, htail, if_true]

/-- A sequence of blocks, on a chain with a last block, is placed. -/
theorem reconcile_of_tail (policy : Reconciler) {c : Chain}
    {tail first last : Block} {candidate : List Block}
    (htail : c.tail? = some tail) (hfirst : candidate.head? = some first)
    (hlast : candidate.getLast? = some last)
    (hsequence : Block.isSequence candidate = true) :
    policy.reconcile c candidate =
      match placement c tail first last candidate with
      | some outcome => (outcome, c)
      | none => (.extended (c.extend candidate).taken, (c.extend candidate).chain) := by
  cases hplace : placement c tail first last candidate with
  | none => simp only [reconcile, hfirst, hlast, hsequence, htail, hplace, if_true]
  | some outcome => simp only [reconcile, hfirst, hlast, hsequence, htail, hplace, if_true]

/-- A candidate that is placed as a replacement is not known. It is a whole chain from index zero
on, or a splice from an index in the chain on, where it links to the block below. -/
theorem placement_replace {c : Chain} {tail first last : Block}
    {candidate : List Block} {r : Replacement}
    (h : placement c tail first last candidate = some (.replace r)) :
    isKnown c candidate = false ∧
      (first.index = 0 ∧ r = .full candidate ∨
        first.index ≠ 0 ∧ r = .splice first.index candidate ∧ first.index ≤ tail.index ∧
          (first.index ≤ tail.index + 1 → linksInto c first = true)) := by
  unfold placement at h
  by_cases hknown : isKnown c candidate = true
  · simp [hknown] at h
  · refine ⟨by simpa using hknown, ?_⟩
    by_cases hzero : first.index = 0
    · simp only [hknown, hzero, if_true, Bool.false_eq_true, if_false] at h
      cases h
      exact Or.inl ⟨hzero, rfl⟩
    · right
      refine ⟨hzero, ?_⟩
      simp only [hknown, hzero, Bool.false_eq_true, if_false] at h
      split at h
      · cases h
      · next haligned =>
          split at h
          · next hle =>
              cases h
              exact ⟨rfl, hle, fun hnext => by simpa [hnext] using haligned⟩
          · split at h <;> cases h

/-- Without any blocks nothing is known. -/
theorem isKnown_of_tail_eq_none {c : Chain} (htail : c.tail? = none) {candidate : List Block}
    {first : Block} (hfirst : candidate.head? = some first) : isKnown c candidate = false := by
  have hnil : c.blocks = [] := List.getLast?_eq_none_iff.mp htail
  apply isKnown_eq_false (List.mem_of_head? hfirst)
  intro known hknown
  rw [Chain.get?, hnil] at hknown
  cases hknown

/-- A replacement that a candidate leads to takes all of its blocks, which are a sequence and
not all known. -/
theorem reconcile_eq_replace {policy : Reconciler} {c d : Chain}
    {candidate : List Block} {r : Replacement}
    (h : policy.reconcile c candidate = (.replace r, d)) :
    d = c ∧ Block.isSequence candidate = true ∧ isKnown c candidate = false ∧
      ∃ first, candidate.head? = some first ∧
        (first.index = 0 ∧ r = .full candidate ∨
          first.index ≠ 0 ∧ r = .splice first.index candidate ∧
            ∃ tail, c.tail? = some tail ∧ first.index ≤ tail.index ∧
              (first.index ≤ tail.index + 1 → linksInto c first = true)) := by
  by_cases hbroken : candidate = [] ∨ Block.isSequence candidate = false
  · rw [reconcile_of_not_isSequence policy c hbroken] at h
    cases h
  · obtain ⟨hsequence, first, last, hfirst, hlast⟩ := exists_ends_of_isSequence hbroken
    cases htail : c.tail? with
    | none =>
        rw [reconcile_of_tail_eq_none policy htail hfirst hlast hsequence] at h
        split at h
        · next hzero =>
            cases h
            exact ⟨rfl, hsequence, isKnown_of_tail_eq_none htail hfirst, first, hfirst,
              Or.inl ⟨hzero, rfl⟩⟩
        · cases h
    | some tail =>
        rw [reconcile_of_tail policy htail hfirst hlast hsequence] at h
        cases hplace : placement c tail first last candidate with
        | none =>
            rw [hplace] at h
            cases h
        | some outcome =>
            rw [hplace] at h
            cases h
            obtain ⟨hknown, hfull | ⟨hzero, hr, hplaced⟩⟩ := placement_replace hplace
            · exact ⟨rfl, hsequence, hknown, first, hfirst, Or.inl hfull⟩
            · exact ⟨rfl, hsequence, hknown, first, hfirst,
                Or.inr ⟨hzero, hr, tail, rfl, hplaced⟩⟩

/-- A replacement that a candidate leads to starts at its first index; the chain stays the
same. -/
theorem reconcile_replace {policy : Reconciler} {c d : Chain}
    {candidate : List Block} {r : Replacement}
    (h : policy.reconcile c candidate = (.replace r, d)) :
    d = c ∧ ∃ first, candidate.head? = some first ∧
      (first.index = 0 ∧ r = .full candidate ∨
        first.index ≠ 0 ∧ r = .splice first.index candidate) := by
  obtain ⟨hd, _, _, first, hfirst, hfull | ⟨hzero, hr, _⟩⟩ := reconcile_eq_replace h
  · exact ⟨hd, first, hfirst, Or.inl hfull⟩
  · exact ⟨hd, first, hfirst, Or.inr ⟨hzero, hr⟩⟩

/-- A candidate is placed as a request if it does not link to the block below it, or if blocks are
missing between the chain and the candidate. -/
theorem placement_requestRange {c : Chain} {tail first last : Block}
    {candidate : List Block} {range : BlockRange}
    (h : placement c tail first last candidate = some (.requestRange range)) :
    first.index ≠ 0 ∧
      (first.index ≤ tail.index + 1 ∧ linksInto c first = false ∧
          range = ⟨first.index - 1, last.index⟩ ∨
        tail.index < first.index ∧ first.index ≠ tail.index + 1 ∧
          range = ⟨tail.index + 1, last.index⟩) := by
  unfold placement at h
  split at h
  · cases h
  split at h
  · cases h
  next hzero =>
    refine ⟨hzero, ?_⟩
    split at h
    · next hastray =>
        cases h
        exact Or.inl ⟨hastray.1, hastray.2, rfl⟩
    split at h
    · cases h
    next hbehind =>
      split at h
      · cases h
      · next hgap =>
          cases h
          exact Or.inr ⟨UInt64.not_le.mp hbehind, hgap, rfl⟩

/-- A range is asked for up to the last block of the candidate. It starts at the beginning if there
are no local blocks, one block below the candidate if that does not link, and behind the local
blocks if there is a gap. -/
theorem reconcile_eq_requestRange {policy : Reconciler} {c d : Chain}
    {candidate : List Block} {range : BlockRange}
    (h : policy.reconcile c candidate = (.requestRange range, d)) :
    d = c ∧ Block.isSequence candidate = true ∧
      ∃ first last, candidate.head? = some first ∧ candidate.getLast? = some last ∧
        first.index ≠ 0 ∧ range.last = last.index ∧
          (c.tail? = none ∧ range.first = 0 ∨
            ∃ tail, c.tail? = some tail ∧
              (first.index ≤ tail.index + 1 ∧ linksInto c first = false ∧
                  range.first = first.index - 1 ∨
                tail.index < first.index ∧ first.index ≠ tail.index + 1 ∧
                  range.first = tail.index + 1)) := by
  by_cases hbroken : candidate = [] ∨ Block.isSequence candidate = false
  · rw [reconcile_of_not_isSequence policy c hbroken] at h
    cases h
  · obtain ⟨hsequence, first, last, hfirst, hlast⟩ := exists_ends_of_isSequence hbroken
    cases htail : c.tail? with
    | none =>
        rw [reconcile_of_tail_eq_none policy htail hfirst hlast hsequence] at h
        split at h
        · cases h
        · next hzero =>
            cases h
            exact ⟨rfl, hsequence, first, last, hfirst, hlast, hzero, rfl, Or.inl ⟨rfl, rfl⟩⟩
    | some tail =>
        rw [reconcile_of_tail policy htail hfirst hlast hsequence] at h
        cases hplace : placement c tail first last candidate with
        | none =>
            rw [hplace] at h
            cases h
        | some outcome =>
            rw [hplace] at h
            cases h
            obtain ⟨hzero, ⟨hnear, hlink, rfl⟩ | ⟨hbehind, hgap, rfl⟩⟩ :=
              placement_requestRange hplace
            · exact ⟨rfl, hsequence, first, last, hfirst, hlast, hzero, rfl,
                Or.inr ⟨tail, rfl, Or.inl ⟨hnear, hlink, rfl⟩⟩⟩
            · exact ⟨rfl, hsequence, first, last, hfirst, hlast, hzero, rfl,
                Or.inr ⟨tail, rfl, Or.inr ⟨hbehind, hgap, rfl⟩⟩⟩

theorem placement_eq_discarded_iff (c : Chain) (tail first last : Block) (candidate : List Block) :
    placement c tail first last candidate = some .discarded ↔ isKnown c candidate = true := by
  unfold placement
  split_ifs with hknown <;> simp [hknown]

/-- Blocks are discarded if they are no sequence, or if all of them are known. -/
theorem reconcile_eq_discarded_iff (policy : Reconciler) (c : Chain) {candidate : List Block}
    (hne : candidate ≠ []) :
    (policy.reconcile c candidate).1 = .discarded ↔
      Block.isSequence candidate = false ∨ isKnown c candidate = true := by
  by_cases hbroken : candidate = [] ∨ Block.isSequence candidate = false
  · rw [reconcile_of_not_isSequence policy c hbroken]
    exact ⟨fun _ => Or.inl (hbroken.resolve_left hne), fun _ => rfl⟩
  · obtain ⟨hsequence, first, last, hfirst, hlast⟩ := exists_ends_of_isSequence hbroken
    rw [hsequence]
    cases htail : c.tail? with
    | none =>
        rw [reconcile_of_tail_eq_none policy htail hfirst hlast hsequence,
          isKnown_of_tail_eq_none htail hfirst]
        split <;> simp
    | some tail =>
        rw [reconcile_of_tail policy htail hfirst hlast hsequence,
          ← placement_eq_discarded_iff c tail first last]
        cases placement c tail first last candidate <;> simp

theorem placement_ne_extended (c : Chain) (tail first last : Block) (candidate : List Block)
    (n : ℕ) : placement c tail first last candidate ≠ some (.extended n) := by
  unfold placement
  split_ifs <;> nofun

/-- A candidate that extends the chain is appended to it, as far as it is taken; any other one
leaves the chain as it is. -/
theorem reconcile_cases (policy : Reconciler) (c : Chain) (candidate : List Block) :
    policy.reconcile c candidate =
        (.extended (c.extend candidate).taken, (c.extend candidate).chain) ∨
      (policy.reconcile c candidate).2 = c ∧
        ∀ n, (policy.reconcile c candidate).1 ≠ .extended n := by
  unfold reconcile
  split
  · next first last _ _ =>
      split
      · cases c.tail? with
        | none =>
            right
            dsimp only
            split_ifs <;> exact ⟨rfl, nofun⟩
        | some tail =>
            dsimp only
            cases hplace : placement c tail first last candidate with
            | none => exact Or.inl rfl
            | some outcome =>
                refine Or.inr ⟨rfl, fun n hn => ?_⟩
                exact placement_ne_extended c tail first last candidate n
                  (hplace.trans (congrArg some hn))
      · exact Or.inr ⟨rfl, nofun⟩
  · exact Or.inr ⟨rfl, nofun⟩

theorem eq_extend_of_reconcile {policy : Reconciler} {c d : Chain} {candidate : List Block}
    {n : ℕ} (h : policy.reconcile c candidate = (.extended n, d)) :
    n = (c.extend candidate).taken ∧ d = (c.extend candidate).chain := by
  rcases reconcile_cases policy c candidate with hextended | ⟨_, hother⟩
  · rw [hextended] at h
    cases h
    exact ⟨rfl, rfl⟩
  · exact absurd (congrArg Prod.fst h) (hother n)

theorem reconcile_chain (policy : Reconciler) (c : Chain)
    (candidate : List Block) :
    (policy.reconcile c candidate).2 = c ∨
      (policy.reconcile c candidate).2 = (c.extend candidate).chain := by
  rcases reconcile_cases policy c candidate with hextended | ⟨hsame, _⟩
  · rw [hextended]
    exact Or.inr rfl
  · exact Or.inl hsame

theorem blocks_of_reconcile {policy : Reconciler} {c d : Chain}
    {candidate : List Block} {r : Replacement}
    (h : policy.reconcile c candidate = (.replace r, d)) : r.blocks = candidate := by
  obtain ⟨_, first, _, hshape⟩ := reconcile_replace h
  rcases hshape with ⟨_, rfl⟩ | ⟨_, rfl⟩ <;> rfl

theorem isAnchored_of_reconcile {policy : Reconciler} {c d : Chain}
    {candidate : List Block} {r : Replacement}
    (h : policy.reconcile c candidate = (.replace r, d)) : r.IsAnchored := by
  obtain ⟨_, first, hfirst, hshape⟩ := reconcile_replace h
  rcases hshape with ⟨hzero, rfl⟩ | ⟨hzero, rfl⟩
  · intro x hx
    rw [hfirst] at hx
    obtain rfl := Option.some.inj hx
    exact hzero
  · exact hzero

end Reconciler

/-- A candidate keeps a chain sound. -/
theorem Chain.Sound.reconcile {c : Chain} (h : c.Sound) (policy : Reconciler)
    (candidate : List Block) : (policy.reconcile c candidate).2.Sound := by
  rcases Reconciler.reconcile_chain policy c candidate with hsame | hextended
  · rw [hsame]
    exact h
  · rw [hextended]
    exact h.extend candidate

end WorkLedger
