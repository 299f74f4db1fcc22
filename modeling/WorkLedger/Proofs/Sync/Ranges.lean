import WorkLedger.Proofs.Account.Resolved
import WorkLedger.Proofs.Chain.Position
import WorkLedger.Proofs.Sync.Reconcile

/-!
# Ranges of a chain

A range that a chain serves is a slice of it: what stands from the position of its first index up
to that of its last one. A slice of a valid chain is a sequence, so whoever is sent one finds fault
with it in no other way than by knowing all of its blocks already; and slices that meet join up.
-/

namespace WorkLedger

/-- A predicate that tells the positions from one up to another filters out the slice between
them. -/
theorem filter_eq_slice {α : Type*} {p : α → Bool} {l : List α} {m n : ℕ}
    (h : ∀ i a, l[i]? = some a → (p a = true ↔ m ≤ i ∧ i < n)) :
    l.filter p = (l.take n).drop m := by
  induction l generalizing m n with
  | nil => simp
  | cons a l ih =>
      have hhead := h 0 a rfl
      have hrest : ∀ i b, l[i]? = some b → (p b = true ↔ m ≤ i + 1 ∧ i + 1 < n) :=
        fun i b hb => h (i + 1) b hb
      cases n with
      | zero =>
          have hnone := ih (m := 0) (n := 0) fun i b hb => by simpa using hrest i b hb
          rw [List.filter_cons_of_neg (by simpa using hhead), hnone, List.take_zero,
            List.take_zero, List.drop_nil, List.drop_nil]
      | succ n =>
          cases m with
          | zero =>
              have hlater := ih (m := 0) (n := n) fun i b hb => by simpa using hrest i b hb
              rw [List.filter_cons_of_pos (by simpa using hhead), hlater, List.take_succ_cons,
                List.drop_zero, List.drop_zero]
          | succ m =>
              have hlater := ih (m := m) (n := n) fun i b hb => by simpa using hrest i b hb
              rw [List.filter_cons_of_neg (by simpa using hhead), hlater, List.take_succ_cons,
                List.drop_succ_cons]

/-- Slices of a list that meet join up. -/
theorem slice_append {α : Type*} (l : List α) {i j k : ℕ} (hij : i ≤ j) (hjk : j ≤ k)
    (hk : k ≤ l.length) :
    (l.take j).drop i ++ (l.take k).drop j = (l.take k).drop i := by
  have hlower : (l.take k).take j = l.take j := by
    rw [List.take_take, Nat.min_eq_left hjk]
  have hlength : i ≤ (l.take j).length := by
    rw [List.length_take]
    omega
  rw [← List.drop_append_of_le_length hlength, ← hlower, List.take_append_drop]

namespace Chain

namespace Indexed

variable {c : Chain} (h : c.Indexed)

include h

/-- A range is refused if its first index is none of the chain's, and is a slice otherwise. -/
theorem range?_eq (first last : UInt64) :
    c.range? first last =
      if first.toNat < c.blocks.length then
        some ((c.blocks.take (last.toNat + 1)).drop first.toNat)
      else none := by
  have hdrop : (c.blocks.dropWhile fun b => b.index != first) = c.blocks.drop first.toNat := by
    apply dropWhile_eq_drop
    · intro i b hi hb
      rw [bne_iff_ne]
      rintro rfl
      exact absurd (h i b hb) hi.ne'
    · intro b hb
      rw [bne_eq_false_iff_eq, ← UInt64.toNat_inj]
      exact h _ b hb
  have htake : ((c.blocks.drop first.toNat).takeWhile fun b => b.index ≤ last) =
      (c.blocks.drop first.toNat).take (last.toNat + 1 - first.toNat) := by
    apply takeWhile_eq_take
    · intro i b hi hb
      rw [List.getElem?_drop] at hb
      rw [decide_eq_true_eq, UInt64.le_iff_toNat_le, h _ b hb]
      omega
    · intro b hb
      rw [List.getElem?_drop] at hb
      rw [decide_eq_false_iff_not, UInt64.le_iff_toNat_le, h _ b hb]
      omega
  unfold range?
  rw [hdrop]
  split
  · next hnil => rw [if_neg (not_lt.mpr (List.drop_eq_nil_iff.mp hnil))]
  · next hne =>
      rw [htake, ← List.drop_take, if_pos (not_le.mp (mt List.drop_eq_nil_iff.mpr hne))]

theorem slice_eq_filter (first last : UInt64) :
    (c.blocks.take (last.toNat + 1)).drop first.toNat =
      c.blocks.filter fun b => first ≤ b.index ∧ b.index ≤ last := by
  refine (filter_eq_slice fun i b hb => ?_).symm
  rw [decide_eq_true_eq, UInt64.le_iff_toNat_le, UInt64.le_iff_toNat_le, h i b hb,
    Nat.lt_succ_iff]

theorem range?_eq_none_iff (first last : UInt64) :
    c.range? first last = none ↔ c.blocks.length ≤ first.toNat := by
  rw [h.range?_eq]
  split <;> simp_all

theorem range?_eq_some_iff {first last : UInt64} {served : List Block} :
    c.range? first last = some served ↔
      first.toNat < c.blocks.length ∧
        served = (c.blocks.take (last.toNat + 1)).drop first.toNat := by
  rw [h.range?_eq]
  split <;> simp_all [eq_comm]

theorem range?_eq_some_nil_iff {first last : UInt64} :
    c.range? first last = some [] ↔ first.toNat < c.blocks.length ∧ last < first := by
  rw [h.range?_eq_some_iff, eq_comm, List.drop_eq_nil_iff, List.length_take,
    UInt64.lt_iff_toNat_lt]
  omega

theorem exists_range?_append {first k last : UInt64} (hk : first ≤ k) (hlast : k < last)
    (hlength : last.toNat < c.blocks.length) :
    ∃ lower upper, c.range? first k = some lower ∧ c.range? (k + 1) last = some upper ∧
      c.range? first last = some (lower ++ upper) := by
  have hnext := toNat_succ_of_lt hlast
  rw [UInt64.le_iff_toNat_le] at hk
  rw [UInt64.lt_iff_toNat_lt] at hlast
  have hfirst : first.toNat < c.blocks.length := by omega
  have hupper : (k + 1).toNat < c.blocks.length := by omega
  have hjoined := slice_append c.blocks (show first.toNat ≤ k.toNat + 1 by omega)
    (show k.toNat + 1 ≤ last.toNat + 1 by omega) hlength
  refine ⟨_, _, h.range?_eq_some_iff.mpr ⟨hfirst, rfl⟩, h.range?_eq_some_iff.mpr ⟨hupper, rfl⟩, ?_⟩
  rw [hnext, hjoined]
  exact h.range?_eq_some_iff.mpr ⟨hfirst, rfl⟩

end Indexed

/-- The range from a block to the last one is what stands from that block on. -/
theorem InPlace.range?_tail {c : Chain} (h : c.InPlace) {i : ℕ} {b tail : Block}
    (hb : c.blocks[i]? = some b) (htail : c.tail? = some tail) :
    c.range? b.index tail.index = some (c.blocks.drop i) := by
  have hindexed : c.Indexed := h.index
  rw [hindexed.range?_eq_some_iff, h.index i b hb, h.toNat_index_tail htail, List.take_length]
  exact ⟨(List.getElem?_eq_some_iff.mp hb).1, rfl⟩

/-- What the ranges of a chain are to whoever asks for them. -/
structure ServesRanges (c : Chain) : Prop where
  refused : ∀ first last, c.range? first last = none ↔ c.blocks.length ≤ first.toNat
  blocks : ∀ first last served, c.range? first last = some served →
    served = c.blocks.filter fun b => first ≤ b.index ∧ b.index ≤ last
  empty : ∀ first last served, c.range? first last = some served → (served = [] ↔ last < first)
  isSequence : ∀ first last served, c.range? first last = some served →
    Block.isSequence served = true
  /-- Blocks that were served are discarded only where all of them are known. -/
  discarded : ∀ first last served, c.range? first last = some served → served ≠ [] →
    ∀ (policy : Reconciler) (peer : Chain), (policy.reconcile peer served).1 = .discarded ↔
      ∀ b ∈ served, ∃ known, peer.get? b.index = some known ∧ known.hash = b.hash
  joined : ∀ first k last, first ≤ k → k < last → last.toNat < c.blocks.length →
    ∃ lower upper, c.range? first k = some lower ∧ c.range? (k + 1) last = some upper ∧
      c.range? first last = some (lower ++ upper)

/-- A valid chain whose blocks stand at the positions of their indices serves, from any index of
its own to any word, exactly its blocks between the two. -/
theorem servesRanges {c : Chain} (hindexed : c.Indexed) (hvalid : c.isValid = true) :
    c.ServesRanges := by
  have hsequence : ∀ first last served, c.range? first last = some served →
      Block.isSequence served = true := by
    intro first last served hserved
    obtain ⟨-, rfl⟩ := hindexed.range?_eq_some_iff.mp hserved
    have hchain := (Block.isSequence_iff_isChain c.blocks).mp hvalid
    exact (Block.isSequence_iff_isChain _).mpr ((hchain.take _).drop _)
  refine ⟨hindexed.range?_eq_none_iff, ?_, ?_, hsequence, ?_, fun _ _ _ =>
    hindexed.exists_range?_append⟩
  · intro first last served hserved
    rw [(hindexed.range?_eq_some_iff.mp hserved).2, hindexed.slice_eq_filter]
  · intro first last served hserved
    have hfirst := (hindexed.range?_eq_some_iff.mp hserved).1
    constructor
    · rintro rfl
      exact (hindexed.range?_eq_some_nil_iff.mp hserved).2
    · intro hlt
      have hnil := hindexed.range?_eq_some_nil_iff.mpr ⟨hfirst, hlt⟩
      exact Option.some.inj (hserved.symm.trans hnil)
  · intro first last served hserved hne policy peer
    rw [policy.reconcile_eq_discarded_iff peer hne, hsequence first last served hserved,
      Reconciler.isKnown_eq_true_iff]
    simp

/-- The first block and three others that hold nothing. -/
def fourBlocks : Chain := holding [[], [], []]

theorem servesRanges_fourBlocks :
    fourBlocks.Indexed ∧ fourBlocks.isValid = true ∧ fourBlocks.ServesRanges ∧
      fourBlocks.range? 4 0 = none ∧
      ∃ lower upper, fourBlocks.range? 1 2 = some lower ∧ fourBlocks.range? 3 3 = some upper ∧
        fourBlocks.range? 1 3 = some (lower ++ upper) := by
  have hindexed : fourBlocks.Indexed := indexed_holding (by decide)
  have hvalid : fourBlocks.isValid = true := isValid_holding _
  have hserves := servesRanges hindexed hvalid
  exact ⟨hindexed, hvalid, hserves, (hserves.refused 4 0).mpr (by decide),
    hserves.joined 1 2 3 (by decide) (by decide) (by decide)⟩

end Chain

end WorkLedger
