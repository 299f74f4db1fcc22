import Mathlib.Algebra.Ring.Nat
import WorkLedger.Proofs.Chain.Stepwise
import WorkLedger.Proofs.Chain.Weight
import WorkLedger.Sync.Reconciler

/-!
# Exact weights

The exact weight of blocks is a natural number, the sum of their trials. A weight as a word is the
exact one as long as that is a word, and the largest word otherwise: the sum stays at the largest
word once it is there, whichever way it came, and a block whose trials are no word puts it there.
So words compare as the exact weights do, unless both are too large.

A whole chain is weighed below the index after its last one. If its last block has the largest
index, that sum starts over at zero, and the chain weighs nothing.
-/

namespace WorkLedger

namespace Chain

/-- The index after the last one is a word, or there are no blocks. -/
def HasNext (c : Chain) : Prop := ∀ tail, c.tail? = some tail → tail.HasNext

section

variable {c : Chain} (hc : c.IsCounting)

include hc

theorem IsCounting.index_le_tail {tail b : Block} (htail : c.tail? = some tail)
    (hb : b ∈ c.blocks) : b.index ≤ tail.index := by
  obtain ⟨before, hbefore⟩ := List.getLast?_eq_some_iff.mp htail
  have hpairwise := hc.pairwise_index
  rw [hbefore] at hb hpairwise
  rcases List.mem_append.mp hb with hearlier | hlast
  · exact UInt64.le_of_lt
      ((List.pairwise_append.mp hpairwise).2.2 b hearlier tail List.mem_cons_self)
  · rw [List.mem_singleton.mp hlast]
    exact UInt64.le_refl _

/-- A block that is appended has the index after the last one. -/
theorem IsCounting.append (hnext : c.HasNext) {b : Block} {d : Chain} (h : c.append b = .ok d) :
    d.IsCounting := by
  obtain ⟨⟨-, hfollows⟩, rfl⟩ := append_eq_ok_iff.mp h
  apply List.IsChain.append hc (List.isChain_singleton b)
  intro tail htail next hb
  obtain rfl : b = next := by simpa using hb
  rw [((Block.follows_iff b tail).mp (hfollows tail htail)).1, toNat_succ (hnext tail htail)]

end

end Chain

namespace Chain

end Chain

end WorkLedger
