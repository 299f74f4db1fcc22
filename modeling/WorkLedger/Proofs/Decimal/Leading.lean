import Mathlib.Data.List.DropRight
import WorkLedger.Proofs.Decimal.Written
import WorkLedger.Proofs.Json.Numerals

/-!
# Leading digits

The digits of a positive number open with one that is not zero. So do those of the
shortest decimal of a float: on no grid is zero one of the decimals that round to a
positive float. The numerals of natural numbers and of amounts are therefore proper.
-/

namespace WorkLedger

theorem Radix.exists_digitsOnto {b : ℕ} (hb : 0 < b) (hbase : 2 ≤ b) {bound n : ℕ}
    (hn : n < 2 ^ bound) (hpos : n ≠ 0) (low : List (Fin b)) :
    ∃ d ds, digitsOnto b hb bound n low = d :: ds ∧ d.val ≠ 0 := by
  induction bound generalizing n low with
  | zero => exact absurd (Nat.lt_one_iff.mp hn) hpos
  | succ bound ih =>
      rw [digitsOnto, if_neg hpos]
      by_cases hlast : n / b = 0
      · have hself : n % b = n := Nat.mod_eq_of_lt ((Nat.div_eq_zero_iff_lt hb).mp hlast)
        refine ⟨⟨n % b, Nat.mod_lt n hb⟩, low, ?_, hself.trans_ne hpos⟩
        rw [hlast]
        cases bound <;> rfl
      · have hle : n / b ≤ n / 2 := Nat.div_le_div_left hbase (by decide)
        have hlt : n / 2 < 2 ^ bound := by
          rw [pow_succ] at hn
          omega
        exact ih (lt_of_le_of_lt hle hlt) hlast _

namespace Decimal

/-- The digits of a positive number open with one that is not zero. -/
theorem exists_digits {n : ℕ} (hn : n ≠ 0) :
    ∃ d ds, digits n = d :: ds ∧ d ≠ Digit.zero := by
  obtain ⟨d, ds, hdigits, hd⟩ :=
    Radix.exists_digitsOnto (b := 10) (by decide) (by decide) (Nat.lt_log2_self (n := n)) hn []
  refine ⟨d, ds, hdigits, fun hzero => hd ?_⟩
  rw [hzero]
  rfl

theorem isWhole_cons {d : Digit} (hd : d ≠ Digit.zero) (ds : List Digit) :
    Json.isWhole (d :: ds) = true := by
  cases ds with
  | nil => rfl
  | cons e ds => exact bne_iff_ne.mpr hd

theorem isWhole_natDigits (n : ℕ) : Json.isWhole (natDigits n) = true := by
  unfold natDigits
  by_cases hn : n = 0
  · rw [if_pos hn]
    rfl
  · obtain ⟨d, ds, hdigits, hd⟩ := exists_digits hn
    rw [if_neg hn, hdigits]
    exact isWhole_cons hd ds

theorem natDigits_ne_nil (n : ℕ) : natDigits n ≠ [] := by
  intro hnil
  have hwhole := isWhole_natDigits n
  rw [hnil] at hwhole
  cases hwhole

end Decimal

theorem Numeral.isProper_ofNat (n : ℕ) : (ofNat n).IsProper where
  whole := Decimal.isWhole_natDigits n
  exponent := fun _ he => absurd he nofun

namespace Decimal

theorem Ratio.num_ofBinary_pos {n : ℕ} (hn : 0 < n) (e : ℤ) : 0 < (Ratio.ofBinary n e).num := by
  rw [ofBinary]
  split
  · exact hn
  · exact Nat.mul_pos hn (Nat.pow_pos (by decide))

theorem Ratio.num_scale_pos {r : Ratio} (h : 0 < r.num) (e : ℤ) : 0 < (r.scale e).num := by
  rw [scale]
  split
  · exact Nat.mul_pos h (Nat.pow_pos (by decide))
  · exact h

theorem ne_zero_of_fits {low below den : ℕ} (hlow : 0 < low) {even : Bool}
    (h : (decide (low < below * den) || (even && decide (low = below * den))) = true) :
    below ≠ 0 := by
  rintro rfl
  rw [Nat.zero_mul] at h
  simp [hlow.ne'] at h

/-- Zero is not among the decimals of a grid that round to a positive float: the lower
end of its interval is positive. -/
theorem Binary.digits_onGrid_ne_zero {b : Binary} (hb : b.mantissa ≠ 0) {tie : Tie} {e : ℤ}
    {d : Shifted} (h : b.onGrid tie e = some d) : d.digits ≠ 0 := by
  have hunit : 0 < ((Ratio.ofBinary 1 (b.exponent - 2)).scale e).num :=
    Ratio.num_scale_pos (Ratio.num_ofBinary_pos (by decide) _) e
  have hlow : 0 < (4 * b.mantissa - if b.narrow = true then 1 else 2) *
      ((Ratio.ofBinary 1 (b.exponent - 2)).scale e).num := by
    refine Nat.mul_pos ?_ hunit
    split <;> omega
  simp only [onGrid] at h
  split at h
  next hbelow _ =>
    split at h
    · cases h
      exact ne_zero_of_fits hlow hbelow
    · cases h
      exact Nat.succ_ne_zero _
  next hbelow _ =>
    cases h
    exact ne_zero_of_fits hlow hbelow
  next =>
    cases h
    exact Nat.succ_ne_zero _
  next => cases h

theorem Binary.digits_shortestFrom_ne_zero {b : Binary} (hb : b.mantissa ≠ 0) (tie : Tie)
    (grids : ℕ) (e : ℤ) : (b.shortestFrom tie grids e).digits ≠ 0 := by
  induction grids generalizing e with
  | zero => exact hb
  | succ grids ih =>
      rw [shortestFrom]
      cases hgrid : b.onGrid tie e with
      | none => exact ih (e - 1)
      | some d => exact digits_onGrid_ne_zero hb hgrid

theorem mantissa_of_kindOfBits {bits : ℕ} {negative : Bool} {size : Binary}
    (h : kindOfBits bits = .finite negative size) : size.mantissa ≠ 0 := by
  simp only [kindOfBits] at h
  split_ifs at h with _ _ _ hlow
  · cases h
    exact hlow
  · cases h
    exact (Nat.add_pos_left (by decide) _).ne'

/-- The digits of a decimal that is not zero open with one that is not zero, also
without the zeros at their end. -/
theorem exists_digits_toScientific {d : Shifted} (hd : d.digits ≠ 0) :
    ∃ first ds, d.toScientific.digits = first :: ds ∧ first ≠ Digit.zero := by
  obtain ⟨first, ds, hdigits, hfirst⟩ := exists_digits hd
  have hkept : d.toScientific.digits <+: first :: ds := by
    rw [← hdigits]
    exact List.rdropWhile_prefix _ _
  have hne : d.toScientific.digits ≠ [] := by
    change dropTrailingZeros (digits d.digits) ≠ []
    rw [hdigits]
    intro hnil
    have hzeros := List.rdropWhile_eq_nil_iff.mp hnil
    exact hfirst (beq_iff_eq.mp (hzeros first List.mem_cons_self))
  obtain ⟨x, xs, hcons⟩ := List.exists_cons_of_ne_nil hne
  rw [hcons] at hkept ⊢
  obtain ⟨rfl, _⟩ := List.cons_prefix_cons.mp hkept
  exact ⟨x, xs, rfl, hfirst⟩

theorem isWhole_take_append {ds : List Digit} {first : Digit} {rest : List Digit}
    (hds : ds = first :: rest) (hfirst : first ≠ Digit.zero) (places : ℕ) (more : List Digit) :
    Json.isWhole (ds.take (places + 1) ++ more) = true := by
  rw [hds]
  exact isWhole_cons hfirst _

/-- Every numeral of a decimal that is not zero is proper, in any layout. -/
theorem Layout.isProper_numeral (l : Layout) (negative : Bool) {d : Shifted}
    (hd : d.digits ≠ 0) : (l.numeral negative d.toScientific).IsProper := by
  obtain ⟨first, ds, hdigits, hfirst⟩ := exists_digits_toScientific hd
  generalize d.toScientific = e at hdigits
  rw [numeral]
  split
  · rw [positional]
    split
    · exact ⟨rfl, fun _ he => absurd he nofun⟩
    · exact ⟨isWhole_take_append hdigits hfirst _ _, fun _ he => absurd he nofun⟩
  · constructor
    · rw [scientific, hdigits]
      rfl
    · intro x hx
      obtain rfl := Option.some.inj hx
      exact natDigits_ne_nil _

theorem Layout.isProper_ofFloat? {l : Layout} {x : Float} {n : Numeral}
    (h : l.ofFloat? x = some n) : n.IsProper := by
  rw [ofFloat?] at h
  split at h
  next => cases h
  next => cases h
  next =>
    cases h
    exact ⟨rfl, fun _ he => absurd he nofun⟩
  next negative size hkind =>
    cases h
    exact l.isProper_numeral negative
      (Binary.digits_shortestFrom_ne_zero (mantissa_of_kindOfBits hkind) l.tie _ _)

end Decimal

end WorkLedger
