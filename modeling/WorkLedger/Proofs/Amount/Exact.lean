import WorkLedger.Proofs.Amount.Whole

/-!
# The exact values of amounts

Amounts are floats, and their arithmetic rounds. The exact value of an amount is
the rational number that it stands for. Amounts of whole numbers below the
fifty-third power of two are added and subtracted without rounding, as long as
the results stay below it as well.
-/

namespace WorkLedger

namespace Amount

open Float.Model

/-- The exact value of an amount. One that is not finite counts as zero. -/
def exact (x : Float) : ℚ := unpackedValue x.toModel.unpack

/-- An amount is finite, and its exact value is a whole number. -/
def Holds (x : Float) (n : ℤ) : Prop := x.isFinite = true ∧ exact x = n

theorem holds_of_isWhole {x : Float} {n : ℤ} (h : IsWhole x.toModel.unpack n) : Holds x n :=
  value_of_isWhole h

theorem Holds.isWhole {x : Float} {n : ℤ} (h : Holds x n) (hn : n.natAbs < 2 ^ 53) :
    IsWhole x.toModel.unpack n :=
  isWhole_of_value h.1 h.2 hn

theorem holds_pack {u : UnpackedFloat} {n : ℤ} (h : IsWhole u n) : Holds ⟨pack u⟩ n := by
  apply holds_of_isWhole
  rwa [unpack_pack h]

/-- An amount holds the number whose digits it has. -/
theorem holds_of_unpack {x : Float} (k p : ℕ) (hpos : 0 < k * 2 ^ p) (hp : k.log2 + p = 52)
    (h : x.toModel.unpack = .finite .positive (k * 2 ^ p) (-p) hpos) : Holds x k := by
  apply holds_of_isWhole
  rw [h]
  exact .finite .positive k p hpos hp

theorem holds_zero : Holds 0 0 := holds_pack (.zero .positive)

theorem holds_neg_zero : Holds (-0.0) 0 := holds_pack (.zero .negative)

section

variable {x y : Float} {m n : ℤ} (hx : Holds x m) (hy : Holds y n) (hm : m.natAbs < 2 ^ 53)
  (hn : n.natAbs < 2 ^ 53)

include hx hm

theorem Holds.neg : Holds (-x) (-m) :=
  holds_pack (isWhole_neg (hx.isWhole hm))

include hy hn

theorem Holds.add (h : (m + n).natAbs < 2 ^ 53) : Holds (x + y) (m + n) :=
  holds_pack (isWhole_add (hx.isWhole hm) (hy.isWhole hn) h)

theorem Holds.sub (h : (m - n).natAbs < 2 ^ 53) : Holds (x - y) (m - n) :=
  holds_pack (isWhole_sub (hx.isWhole hm) (hy.isWhole hn) h)

end

/-- Amounts of one whole number are equal. -/
theorem Holds.beq {x y : Float} {n : ℤ} (hx : Holds x n) (hy : Holds y n)
    (hn : n.natAbs < 2 ^ 53) : (x == y) = true :=
  beq_of_isWhole (hx.isWhole hn) (hy.isWhole hn)

/-- An amount is a whole number of units, and not negative. -/
def IsUnits (x : Float) : Prop := ∃ n : ℕ, Holds x n

theorem IsUnits.exact_nonneg {x : Float} (h : IsUnits x) : 0 ≤ exact x := by
  obtain ⟨n, _, hn⟩ := h
  rw [hn]
  exact_mod_cast n.zero_le

theorem exists_sum_exact {xs : List Float} (h : ∀ x ∈ xs, IsUnits x) :
    ∃ t : ℕ, (xs.map exact).sum = t := by
  induction xs with
  | nil => exact ⟨0, rfl⟩
  | cons x xs ih =>
      rw [List.forall_mem_cons] at h
      obtain ⟨⟨n, _, hn⟩, hxs⟩ := h
      obtain ⟨t, ht⟩ := ih hxs
      refine ⟨n + t, ?_⟩
      rw [List.map_cons, List.sum_cons, hn, ht]
      push_cast
      rfl

/-- Units that are added one after the other are added without rounding. -/
theorem holds_foldl {xs : List Float} (hxs : ∀ x ∈ xs, IsUnits x) {y : Float} {m t : ℕ}
    (hy : Holds y m) (ht : m + (xs.map exact).sum = t) (hlt : t < 2 ^ 53) :
    Holds (xs.foldl (· + ·) y) t := by
  induction xs generalizing y m with
  | nil =>
      obtain rfl : m = t := by exact_mod_cast (add_zero (m : ℚ)).symm.trans ht
      exact hy
  | cons x xs ih =>
      rw [List.forall_mem_cons] at hxs
      obtain ⟨⟨n, hx⟩, hrest⟩ := hxs
      obtain ⟨r, hr⟩ := exists_sum_exact hrest
      rw [List.map_cons, List.sum_cons, hx.2, hr] at ht
      have htotal : m + n + r = t := by
        rw [← add_assoc] at ht
        exact_mod_cast ht
      have hsum := hy.add hx (by omega) (by omega) (by omega)
      refine ih hrest (m := m + n) (by exact_mod_cast hsum) ?_
      rw [hr]
      exact_mod_cast htotal

theorem sum_append_singleton (xs : List Float) (x : Float) : sum (xs ++ [x]) = sum xs + x := by
  rw [sum, List.foldl_append]
  rfl

theorem holds_sum {xs : List Float} (hxs : ∀ x ∈ xs, IsUnits x) {t : ℕ}
    (ht : (xs.map exact).sum = t) (hlt : t < 2 ^ 53) : Holds (sum xs) t :=
  holds_foldl hxs (m := 0) holds_neg_zero (by rw [ht, Nat.cast_zero, zero_add]) hlt

end Amount

end WorkLedger
