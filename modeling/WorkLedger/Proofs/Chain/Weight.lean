import WorkLedger.Chain.Weight
import WorkLedger.Proofs.Chain.Position

/-!
# The weight of blocks in place

The weight of a chain whose blocks stand in place is the total weight of their
difficulties, which never decreases when blocks are added. If there were so many
blocks that the number is no word any more, the weight would wrap to zero.
-/

namespace WorkLedger

theorem le_saturatingAdd (a b : UInt64) : a ≤ saturatingAdd a b := by
  unfold saturatingAdd
  split
  · rw [UInt64.le_iff_toNat_le]
    exact Nat.le_sub_one_of_lt a.toNat_lt
  · next hsmall =>
      have hlt : a.toNat + b.toNat < 2 ^ 64 := not_le.mp hsmall
      rw [UInt64.le_iff_toNat_le, UInt64.toNat_add, Nat.mod_eq_of_lt hlt]
      exact Nat.le_add_right _ _

/-- The total weight of a list of difficulties. -/
def totalWeight (ds : List UInt32) : UInt64 :=
  ds.foldl (fun w d => saturatingAdd w (weightOf d)) 0

theorem totalWeight_le_append (ds es : List UInt32) :
    totalWeight ds ≤ totalWeight (ds ++ es) := by
  unfold totalWeight
  rw [List.foldl_append]
  generalize ds.foldl (fun w d => saturatingAdd w (weightOf d)) 0 = w
  induction es generalizing w with
  | nil => exact UInt64.le_refl w
  | cons d es ih => exact UInt64.le_trans (le_saturatingAdd w (weightOf d)) (ih _)

namespace Chain.InPlace

variable {c : Chain}

theorem weightBefore_eq (h : c.InPlace) (index : UInt64) :
    c.weightBefore index =
      totalWeight ((c.blocks.take index.toNat).map Block.difficulty) := by
  rw [weightBefore, h.takeWhile_index, totalWeight, List.foldl_map]

theorem weight_eq (h : c.InPlace) (hfits : c.Fits) :
    c.weight = totalWeight (c.blocks.map Block.difficulty) := by
  have htail := List.getLast?_eq_some_getLast h.ne_nil
  have hweight : c.weight = c.weightBefore ((c.blocks.getLast h.ne_nil).index + 1) := by
    rw [weight, tail?, htail]
  rw [hweight, h.weightBefore_eq, h.toNat_next hfits htail, List.take_length]

/-- A chain of positive weight fits into memory. -/
theorem fits_of_weight_ne_zero (h : c.InPlace) (hweight : c.weight ≠ 0) : c.Fits := by
  have htail := List.getLast?_eq_some_getLast h.ne_nil
  have hlength := h.toNat_index_tail htail
  have hword := (c.blocks.getLast h.ne_nil).index.toNat_lt
  by_contra hlong
  have hlast : (c.blocks.getLast h.ne_nil).index.toNat + 1 = 2 ^ 64 := by
    have hle : 2 ^ 64 ≤ c.blocks.length := not_lt.mp hlong
    omega
  apply hweight
  rw [weight, tail?, htail]
  change c.weightBefore ((c.blocks.getLast h.ne_nil).index + 1) = 0
  rw [h.weightBefore_eq, UInt64.toNat_add, UInt64.toNat_one, hlast, Nat.mod_self]
  rfl

end Chain.InPlace

end WorkLedger
