import Mathlib.Data.Int.Notation
import Mathlib.Order.Compare

/-!
# The order of amounts

Two amounts are comparable unless one of them is not a number. Among the others, one amount is
below another exactly if the other is not at most the one.
-/

namespace WorkLedger

namespace Amount

open Float.Model

theorem compare_swap (x y : UnpackedFloat) : y.compare x = (x.compare y).map Ordering.swap := by
  have hexponent : ∀ e f : ℤ, compare f e = (compare e f).swap := fun _ _ =>
    Std.OrientedCmp.eq_swap
  have hmantissa : ∀ m n : ℕ, compare n m = (compare m n).swap := fun _ _ =>
    Std.OrientedCmp.eq_swap
  cases x with
  | notANumber => cases y <;> rfl
  | infinity s | zero s =>
      cases y with
      | notANumber => cases s <;> rfl
      | infinity t | zero t | finite t => cases s <;> cases t <;> rfl
  | finite s m e =>
      cases y with
      | notANumber => cases s <;> rfl
      | infinity t | zero t => cases s <;> cases t <;> rfl
      | finite t n f =>
          have hboth : (compare f e).then (compare n m) =
              ((compare e f).then (compare m n)).swap := by
            rw [Ordering.swap_then, hexponent e f, hmantissa m n]
          cases s <;> cases t
          case positive.positive => exact congrArg some hboth
          case negative.negative => exact congrArg (some ∘ Ordering.swap) hboth
          all_goals rfl

theorem exists_compare {x y : UnpackedFloat} (hx : x.isNaN = false) (hy : y.isNaN = false) :
    ∃ o, x.compare y = some o := by
  unfold UnpackedFloat.compare
  split
  · cases hx
  · cases hy
  all_goals exact ⟨_, rfl⟩

/-- An amount is a number, which may be infinite. -/
def IsNumber (x : Float) : Prop := x.isNaN = false

instance (x : Float) : Decidable (IsNumber x) := inferInstanceAs (Decidable (x.isNaN = false))

theorem isNumber_of_isFinite {x : Float} (h : x.isFinite = true) : IsNumber x := by
  change x.toModel.unpack.isFinite = true at h
  change x.toModel.unpack.isNaN = false
  cases hx : x.toModel.unpack with
  | notANumber =>
      rw [hx] at h
      cases h
  | infinity | zero | finite => rfl

section

variable {x y : Float}

theorem lt_iff_compare : x < y ↔ x.toModel.unpack.compare y.toModel.unpack = some .lt := by
  change decide (x.toModel < y.toModel) = true ↔ _
  rw [decide_eq_true_iff]
  change (x.toModel.unpack.compare y.toModel.unpack == some .lt) = true ↔ _
  rw [beq_iff_eq]

theorem le_iff_compare :
    x ≤ y ↔ ∃ o, x.toModel.unpack.compare y.toModel.unpack = some o ∧ o.isLE = true := by
  change decide (x.toModel ≤ y.toModel) = true ↔ _
  rw [decide_eq_true_iff]
  change (x.toModel.unpack.compare y.toModel.unpack).any (·.isLE) = true ↔ _
  rw [Option.any_eq_true]

theorem not_lt_of_le (h : x ≤ y) : ¬ y < x := by
  obtain ⟨o, ho, hle⟩ := le_iff_compare.mp h
  rw [lt_iff_compare, compare_swap, ho]
  rintro hlt
  cases o with
  | gt => cases hle
  | lt | eq => cases hlt

theorem lt_iff_not_le (hx : IsNumber x) (hy : IsNumber y) : x < y ↔ ¬ y ≤ x := by
  refine ⟨fun hlt hle => not_lt_of_le hle hlt, fun hnot => ?_⟩
  obtain ⟨o, ho⟩ := exists_compare hx hy
  rw [lt_iff_compare, ho]
  rw [le_iff_compare, compare_swap, ho] at hnot
  cases o with
  | lt => rfl
  | eq | gt => exact absurd ⟨_, rfl, rfl⟩ hnot

end

end Amount

end WorkLedger
