import Mathlib.Tactic.NormNum
import WorkLedger.Amount

/-!
# Whole numbers in floats

A float has fifty-three binary digits. A whole number with at most that many is
kept as it is: its digits are moved to the left until there are fifty-three, and
the exponent says how far (`IsWhole`). Sums and differences of such numbers that
have at most fifty-three digits again are rounded to themselves, so that
arithmetic with them is exact.
-/

namespace WorkLedger

namespace Amount

open Float.Model Float.Model.UnpackedFloat

theorem log2_mul_two_pow {k : ℕ} (hk : k ≠ 0) (p : ℕ) : (k * 2 ^ p).log2 = k.log2 + p := by
  rw [Nat.log2_eq_iff (by positivity)]
  have hlow := Nat.log2_self_le hk
  have hhigh := Nat.lt_log2_self (n := k)
  constructor
  · rw [pow_add]
    exact Nat.mul_le_mul_right _ hlow
  · rw [add_right_comm, pow_add]
    exact Nat.mul_lt_mul_of_pos_right hhigh (by positivity)

/-- The unpacked floats of whole numbers with at most fifty-three bits: zero, or
the digits of the number moved to the left until there are fifty-three. -/
inductive IsWhole : UnpackedFloat → ℤ → Prop
  | zero (s : Sign) : IsWhole (.zero s) 0
  | finite (s : Sign) (k p : ℕ) (hpos : 0 < k * 2 ^ p) (hp : k.log2 + p = 52) :
      IsWhole (.finite s (k * 2 ^ p) (-p) hpos) (s.apply k)

theorem targetExponent_eq (t : ℤ) :
    Format.binary64.targetExponent t = max (t - 53) (-1074) := rfl

theorem targetExponent_whole {k p j : ℕ} (hk : k ≠ 0) (hp : k.log2 + p = 52) :
    Format.binary64.targetExponent (totalExponent (k * 2 ^ j) (-j)) = -p := by
  rw [targetExponent_eq, totalExponent, log2_mul_two_pow hk]
  omega

theorem decreaseExponent_whole (k : ℕ) {p q : ℕ} (hpq : p ≤ q) :
    decreaseExponent (k * 2 ^ p) (-p) (-q) = (k * 2 ^ q, -(q : ℤ)) := by
  have hshift : (-(p : ℤ) - -(q : ℤ)).toNat = q - p := by omega
  rw [decreaseExponent, hshift, Nat.shiftLeft_eq, mul_assoc, ← pow_add, Nat.add_sub_cancel' hpq]
  simp only [Prod.mk.injEq, true_and]
  omega

theorem repeat_shiftRightOne (k p n : ℕ) :
    n.repeat ExtendedMantissa.shiftRightOne ⟨k * 2 ^ (p + n), false, false⟩ =
      ⟨k * 2 ^ p, false, false⟩ := by
  induction n generalizing p with
  | zero => rfl
  | succ n ih =>
      have hshift : p + (n + 1) = p + 1 + n := by omega
      have hdouble : k * 2 ^ (p + 1) = k * 2 ^ p * 2 := by rw [pow_succ, mul_assoc]
      rw [Nat.repeat, hshift, ih, ExtendedMantissa.shiftRightOne, hdouble]
      simp

theorem shiftToTargetExponent_whole {k p j : ℕ} (hk : k ≠ 0) (hp : k.log2 + p = 52)
    (hpj : p ≤ j) :
    shiftToTargetExponent Format.binary64 (k * 2 ^ j) (-j) .exact =
      (⟨k * 2 ^ p, false, false⟩, -(p : ℤ)) := by
  have hshift : (-(p : ℤ) - -(j : ℤ)).toNat = j - p := by omega
  obtain ⟨n, rfl⟩ := Nat.exists_eq_add_of_le hpj
  rw [shiftToTargetExponent, targetExponent_whole hk hp, shiftToExponent]
  simp only [hshift, Nat.add_sub_cancel_left, ExtendedMantissa.ofMantissaAndAccuracy]
  rw [Prod.mk.injEq]
  refine ⟨repeat_shiftRightOne k p n, ?_⟩
  omega

/-- Rounding moves the digits twice, since the first rounding can carry. -/
theorem roundWithAccuracy_of_shift (s : Sign) {m : ℕ} {e : ℤ} {accuracy : Accuracy}
    {first last : ExtendedMantissa × ℤ}
    (hfirst : shiftToTargetExponent Format.binary64 m e accuracy = first)
    (hlast : shiftToTargetExponent Format.binary64 first.1.roundedMantissa first.2 .exact = last) :
    roundWithAccuracy Format.binary64 s m e accuracy =
      if h : last.1.mantissa = 0 then .zero s
      else .finite s last.1.mantissa last.2 (Nat.pos_of_ne_zero h) := by
  subst hfirst hlast
  rfl

theorem roundWithAccuracy_whole (s : Sign) {k p j : ℕ} (hpos : 0 < k * 2 ^ p)
    (hp : k.log2 + p = 52) (hpj : p ≤ j) :
    roundWithAccuracy Format.binary64 s (k * 2 ^ j) (-j) .exact =
      .finite s (k * 2 ^ p) (-p) hpos := by
  have hk : k ≠ 0 := (Nat.pos_of_mul_pos_right hpos).ne'
  have hfirst := shiftToTargetExponent_whole hk hp hpj
  have hlast := shiftToTargetExponent_whole hk hp le_rfl
  exact (roundWithAccuracy_of_shift s hfirst hlast).trans (dif_neg hpos.ne')

/-- A whole number that is written with any power of two is rounded to itself. -/
theorem round_whole (s : Sign) {k p : ℕ} (j : ℕ) (hpos : 0 < k * 2 ^ p)
    (hp : k.log2 + p = 52) :
    UnpackedFloat.round Format.binary64 s (k * 2 ^ j) (-j) = .finite s (k * 2 ^ p) (-p) hpos := by
  have hk : k ≠ 0 := (Nat.pos_of_mul_pos_right hpos).ne'
  rw [UnpackedFloat.round, targetExponent_whole hk hp]
  rcases le_total j p with hjp | hpj
  · rw [decreaseExponent_whole k hjp]
    exact roundWithAccuracy_whole s hpos hp le_rfl
  · have hshift : (-(j : ℤ) - -(p : ℤ)).toNat = 0 := by omega
    rw [decreaseExponent, hshift, Nat.shiftLeft_zero, Int.ofNat_zero, sub_zero]
    exact roundWithAccuracy_whole s hpos hp hpj

theorem exists_width {k : ℕ} (hk : k ≠ 0) (hlt : k < 2 ^ 53) : ∃ p, k.log2 + p = 52 := by
  have hlog := (Nat.log2_lt hk).mpr hlt
  exact ⟨52 - k.log2, by omega⟩

theorem isWhole_round (s : Sign) {k : ℕ} (hk : k ≠ 0) (hlt : k < 2 ^ 53) (j : ℕ) :
    IsWhole (UnpackedFloat.round Format.binary64 s (k * 2 ^ j) (-j)) (s.apply k) := by
  obtain ⟨p, hp⟩ := exists_width hk hlt
  have hpos : 0 < k * 2 ^ p := by positivity
  rw [round_whole s j hpos hp]
  exact .finite s k p hpos hp

theorem apply_mul (s : Sign) (k r : ℕ) : s.apply ((k * 2 ^ r : ℕ) : ℤ) = s.apply k * 2 ^ r := by
  cases s <;> simp [Sign.apply]

theorem exists_apply_natAbs (z : ℤ) : ∃ s : Sign, s.apply (z.natAbs : ℤ) = z := by
  rcases le_total 0 z with hz | hz
  · exact ⟨.positive, Int.natAbs_of_nonneg hz⟩
  · exact ⟨.negative, by rw [Sign.apply, Int.ofNat_natAbs_of_nonpos hz, neg_neg]⟩

theorem normalize_apply (s t : Sign) {m : ℕ} (hm : 0 < m) (e : ℤ) :
    UnpackedFloat.normalize Format.binary64 (s.apply (m : ℤ)) e t =
      UnpackedFloat.round Format.binary64 s m e := by
  have hpos : (0 : ℤ) < m := by exact_mod_cast hm
  cases s with
  | negative =>
      have hlt : compare (-(m : ℤ)) 0 = .lt := compare_lt_iff_lt.mpr (neg_lt_zero.mpr hpos)
      rw [Sign.apply, UnpackedFloat.normalize, hlt, neg_neg, Int.toNat_natCast]
  | positive =>
      rw [Sign.apply, UnpackedFloat.normalize, compare_gt_iff_gt.mpr hpos, Int.toNat_natCast]

/-- Normalizing finds the digits of a whole number. -/
theorem isWhole_normalize {z : ℤ} (hz : z.natAbs < 2 ^ 53) (j : ℕ) (t : Sign) :
    IsWhole (UnpackedFloat.normalize Format.binary64 (z * 2 ^ j) (-j) t) z := by
  rcases eq_or_ne z 0 with rfl | hne
  · rw [zero_mul]
    exact .zero t
  · obtain ⟨s, hs⟩ := exists_apply_natAbs z
    have hk := Int.natAbs_ne_zero.mpr hne
    have hround := isWhole_round s hk hz j
    rw [hs] at hround
    rwa [← hs, ← apply_mul, normalize_apply s t (by positivity), hs]

theorem add_finite (s t : Sign) {m l : ℕ} (e f : ℤ) (hm : 0 < m) (hl : 0 < l) :
    UnpackedFloat.add Format.binary64 (.finite s m e hm) (.finite t l f hl) =
      UnpackedFloat.normalize Format.binary64 (s.apply (decreaseExponent m e (min e f)).1 +
        t.apply (decreaseExponent l f (min e f)).1) (min e f) .positive := rfl

theorem sub_finite (s t : Sign) {m l : ℕ} (e f : ℤ) (hm : 0 < m) (hl : 0 < l) :
    UnpackedFloat.sub Format.binary64 (.finite s m e hm) (.finite t l f hl) =
      UnpackedFloat.normalize Format.binary64 (s.apply (decreaseExponent m e (min e f)).1 -
        t.apply (decreaseExponent l f (min e f)).1) (min e f) .positive := rfl

theorem isWhole_add {u v : UnpackedFloat} {m n : ℤ} (hu : IsWhole u m) (hv : IsWhole v n)
    (hsum : (m + n).natAbs < 2 ^ 53) : IsWhole (UnpackedFloat.add Format.binary64 u v) (m + n) := by
  cases hu with
  | zero s =>
      rw [zero_add]
      cases hv with
      | zero t => cases s <;> cases t <;> exact .zero _
      | finite t l q hpos hq => exact .finite t l q hpos hq
  | finite s k p hpos hp =>
      cases hv with
      | zero t =>
          rw [add_zero]
          exact .finite s k p hpos hp
      | finite t l q hpos' hq =>
          have hmin : min (-(p : ℤ)) (-(q : ℤ)) = -((max p q : ℕ) : ℤ) := by omega
          rw [add_finite, hmin, decreaseExponent_whole k (le_max_left p q),
            decreaseExponent_whole l (le_max_right p q)]
          simp only [apply_mul, ← add_mul]
          exact isWhole_normalize hsum _ _

theorem isWhole_neg {u : UnpackedFloat} {n : ℤ} (hu : IsWhole u n) : IsWhole u.neg (-n) := by
  cases hu with
  | zero s => exact .zero (-s)
  | finite s k p hpos hp =>
      have happly : -s.apply k = (-s).apply k := by
        cases s with
        | negative => exact neg_neg _
        | positive => rfl
      rw [happly]
      exact .finite (-s) k p hpos hp

theorem isWhole_sub {u v : UnpackedFloat} {m n : ℤ} (hu : IsWhole u m) (hv : IsWhole v n)
    (hdiff : (m - n).natAbs < 2 ^ 53) :
    IsWhole (UnpackedFloat.sub Format.binary64 u v) (m - n) := by
  cases hu with
  | zero s =>
      rw [zero_sub]
      cases hv with
      | zero t => cases s <;> cases t <;> exact .zero _
      | finite t l q hpos hq => exact isWhole_neg (.finite t l q hpos hq)
  | finite s k p hpos hp =>
      cases hv with
      | zero t =>
          rw [sub_zero]
          exact .finite s k p hpos hp
      | finite t l q hpos' hq =>
          have hmin : min (-(p : ℤ)) (-(q : ℤ)) = -((max p q : ℕ) : ℤ) := by omega
          rw [sub_finite, hmin, decreaseExponent_whole k (le_max_left p q),
            decreaseExponent_whole l (le_max_right p q)]
          simp only [apply_mul, ← sub_mul]
          exact isWhole_normalize hdiff _ _

/-- The exact value of an unpacked float. One that is not finite counts as zero. -/
def unpackedValue : UnpackedFloat → ℚ
  | .finite s m e _ => s.apply m * 2 ^ e
  | _ => 0

theorem unpackedValue_finite (s : Sign) {m : ℕ} (e : ℤ) (hm : 0 < m) :
    unpackedValue (.finite s m e hm) = s.apply m * 2 ^ e := rfl

theorem toNat_append_one (m : BitVec 52) : (1#1 ++ m).toNat = 2 ^ 52 + m.toNat := by
  rw [BitVec.toNat_append, ← Nat.shiftLeft_add_eq_or_of_lt m.isLt]
  rfl

theorem toNat_append_one_pos (m : BitVec 52) : 0 < (1#1 ++ m).toNat := by
  rw [toNat_append_one]
  exact Nat.add_pos_left (by decide) _

/-- Unpacking goes by the exponent: with all of its bits a float is not finite, and with none of
them it has no leading one. -/
theorem unpack_eq (b : BitVec 64) : UnpackedFloat.unpack Format.binary64 b =
    if @unpackExponent Format.binary64 b = -1#11 then
      if @unpackMantissa Format.binary64 b = 0#52 then
        .infinity (Sign.ofBitVec (@unpackSign Format.binary64 b))
      else .notANumber
    else if @unpackExponent Format.binary64 b = 0#11 then
      if h : @unpackMantissa Format.binary64 b = 0#52 then
        .zero (Sign.ofBitVec (@unpackSign Format.binary64 b))
      else
        .finite (Sign.ofBitVec (@unpackSign Format.binary64 b))
          (@unpackMantissa Format.binary64 b).toNat
          ((@unpackExponent Format.binary64 b).toNat - ((1023 : ℕ) + (52 : ℕ)) + 1)
          (Nat.pos_of_ne_zero fun hzero => h (BitVec.eq_of_toNat_eq hzero))
    else
      .finite (Sign.ofBitVec (@unpackSign Format.binary64 b))
        (1#1 ++ @unpackMantissa Format.binary64 b).toNat
        ((@unpackExponent Format.binary64 b).toNat - ((1023 : ℕ) + (52 : ℕ)))
        (toNat_append_one_pos _) := rfl

/-- The digits of a float that is neither zero nor infinite: fifty-three of them,
unless the exponent is the lowest. -/
theorem digits_of_unpack {b : BitVec 64} {s : Sign} {m : ℕ} {e : ℤ} {hm : 0 < m}
    (h : UnpackedFloat.unpack Format.binary64 b = .finite s m e hm) :
    m < 2 ^ 53 ∧ (2 ^ 52 ≤ m ∨ e = -1074) := by
  have hlt := (@unpackMantissa Format.binary64 b).isLt
  have hvalue := toNat_append_one (@unpackMantissa Format.binary64 b)
  rw [unpack_eq] at h
  by_cases hones : @unpackExponent Format.binary64 b = -1#11
  · rw [if_pos hones] at h
    by_cases hnone : @unpackMantissa Format.binary64 b = 0#52
    · rw [if_pos hnone] at h
      cases h
    · rw [if_neg hnone] at h
      cases h
  rw [if_neg hones] at h
  by_cases hnormal : @unpackExponent Format.binary64 b = 0#11
  · rw [if_pos hnormal] at h
    by_cases hnone : @unpackMantissa Format.binary64 b = 0#52
    · rw [dif_pos hnone] at h
      cases h
    · rw [dif_neg hnone, UnpackedFloat.finite.injEq] at h
      obtain ⟨-, rfl, rfl⟩ := h
      refine ⟨lt_of_lt_of_le hlt (by norm_num), Or.inr ?_⟩
      rw [hnormal]
      rfl
  · rw [if_neg hnormal, UnpackedFloat.finite.injEq] at h
    obtain ⟨-, rfl, -⟩ := h
    exact ⟨lt_of_eq_of_lt hvalue (by omega), Or.inl (by rw [hvalue]; exact Nat.le_add_right _ _)⟩

theorem natAbs_apply (s : Sign) (m : ℕ) : (s.apply (m : ℤ)).natAbs = m := by
  cases s with
  | negative => exact Int.natAbs_neg m
  | positive => rfl

section

variable {s : Sign} {m : ℕ} {e : ℤ} (hdigits : 2 ^ 52 ≤ m ∨ e = -1074) {n : ℤ}
  (hvalue : (s.apply m : ℚ) * 2 ^ e = n) (hn : n.natAbs < 2 ^ 53)

include hdigits hvalue hn

/-- Digits with a value that is a whole number have been moved to the left. -/
theorem exists_neg_exponent : ∃ p : ℕ, e = -p := by
  by_contra hnone
  obtain ⟨q, rfl⟩ : ∃ q : ℕ, e = q + 1 := by
    have hpos : 0 < e := by
      by_contra hle
      exact hnone ⟨e.natAbs, by omega⟩
    exact ⟨(e - 1).natAbs, by omega⟩
  have hn' : s.apply m * 2 ^ (q + 1) = n := by exact_mod_cast hvalue
  have habs : m * 2 ^ (q + 1) = n.natAbs := by
    rw [← hn', Int.natAbs_mul, natAbs_apply, Int.natAbs_pow]
    rfl
  have hlow : 2 ^ 52 ≤ m := by omega
  have htwo : 2 ^ 1 ≤ 2 ^ (q + 1) := Nat.pow_le_pow_right (by norm_num) (by omega)
  have hhigh : 2 ^ 52 * 2 ^ 1 ≤ m * 2 ^ (q + 1) := Nat.mul_le_mul hlow htwo
  omega

/-- Digits with a value that is a whole number are the digits of that number. -/
theorem isWhole_of_digits (hm : 0 < m) (hhigh : m < 2 ^ 53) : IsWhole (.finite s m e hm) n := by
  obtain ⟨p, rfl⟩ := exists_neg_exponent hdigits hvalue hn
  have hn' : s.apply m = n * 2 ^ p := by
    rw [zpow_neg, zpow_natCast, ← div_eq_mul_inv, div_eq_iff (by positivity)] at hvalue
    exact_mod_cast hvalue
  obtain rfl : m = n.natAbs * 2 ^ p := by
    rw [← natAbs_apply s m, hn', Int.natAbs_mul, Int.natAbs_pow]
    rfl
  have hk : n.natAbs ≠ 0 := (Nat.pos_of_mul_pos_right hm).ne'
  have hlow : 2 ^ 52 ≤ n.natAbs * 2 ^ p := by
    rcases hdigits with hlow | hlowest
    · exact hlow
    · calc 2 ^ 52 ≤ 2 ^ p := Nat.pow_le_pow_right (by norm_num) (by omega)
        _ ≤ n.natAbs * 2 ^ p := Nat.le_mul_of_pos_left _ (Nat.pos_of_ne_zero hk)
  have hlog : n.natAbs.log2 + p = 52 := by
    rw [← log2_mul_two_pow hk, Nat.log2_eq_iff hm.ne']
    exact ⟨hlow, hhigh⟩
  have happly : s.apply n.natAbs = n := by
    rw [apply_mul] at hn'
    exact mul_right_cancel₀ (by positivity) hn'
  have hwhole := IsWhole.finite s n.natAbs p hm hlog
  rwa [happly] at hwhole

end

/-- A float whose value is a whole number of at most fifty-three bits has the
digits of that number. -/
theorem isWhole_of_value {b : BitVec 64} {n : ℤ}
    (hfinite : (UnpackedFloat.unpack Format.binary64 b).isFinite = true)
    (hvalue : unpackedValue (UnpackedFloat.unpack Format.binary64 b) = n)
    (hn : n.natAbs < 2 ^ 53) : IsWhole (UnpackedFloat.unpack Format.binary64 b) n := by
  generalize hu : UnpackedFloat.unpack Format.binary64 b = u at *
  cases u with
  | notANumber => cases hfinite
  | infinity s => cases hfinite
  | zero s =>
      obtain rfl : 0 = n := Int.cast_injective (Int.cast_zero.trans hvalue)
      exact .zero s
  | finite s m e hm =>
      obtain ⟨hhigh, hdigits⟩ := digits_of_unpack hu
      exact isWhole_of_digits hdigits hvalue hn hm hhigh

theorem value_of_isWhole {u : UnpackedFloat} {n : ℤ} (hu : IsWhole u n) :
    u.isFinite = true ∧ unpackedValue u = n := by
  cases hu with
  | zero s => exact ⟨rfl, Int.cast_zero.symm⟩
  | finite s k p hpos hp =>
      refine ⟨rfl, ?_⟩
      rw [unpackedValue_finite, apply_mul]
      push_cast
      rw [mul_assoc, zpow_neg, zpow_natCast, mul_inv_cancel₀ (by positivity), mul_one]

theorem apply_inj {s t : Sign} {k l : ℕ} (hk : 0 < k) (h : s.apply (k : ℤ) = t.apply (l : ℤ)) :
    s = t ∧ k = l := by
  have hkl : k = l := by rw [← natAbs_apply s k, h, natAbs_apply]
  refine ⟨?_, hkl⟩
  cases s <;> cases t <;> first | rfl | simp only [Sign.apply] at h; omega

theorem compare_finite_self (s : Sign) {m : ℕ} (e : ℤ) (hm hm' : 0 < m) :
    UnpackedFloat.compare (.finite s m e hm) (.finite s m e hm') = some .eq := by
  have hparts : (compare e e).then (compare m m) = .eq := by
    rw [compare_eq_iff_eq.mpr rfl, compare_eq_iff_eq.mpr rfl]
    rfl
  cases s with
  | negative => exact congrArg (some ∘ Ordering.swap) hparts
  | positive => exact congrArg some hparts

/-- Floats of one whole number are equal as numbers. -/
theorem beq_of_isWhole {u v : UnpackedFloat} {n : ℤ} (hu : IsWhole u n) (hv : IsWhole v n) :
    u.beq v = true := by
  cases hu with
  | zero s =>
      generalize hn : (0 : ℤ) = n at hv
      cases hv with
      | zero t => rfl
      | finite t l q hpos hq =>
          have hl := Nat.pos_of_mul_pos_right hpos
          rw [← natAbs_apply t l, ← hn] at hl
          cases hl
  | finite s k p hpos hp =>
      have hk := Nat.pos_of_mul_pos_right hpos
      generalize hn : s.apply (k : ℤ) = n at hv
      cases hv with
      | zero t =>
          rw [← natAbs_apply s k, hn] at hk
          cases hk
      | finite t l q hpos' hq =>
          obtain ⟨rfl, rfl⟩ := apply_inj hk hn
          obtain rfl : p = q := by omega
          exact beq_iff_eq.mpr (compare_finite_self s _ hpos hpos')

/-- Packing keeps the exponent if the digits are fifty-three. -/
theorem pack_finite (s : Sign) {m : ℕ} (e : ℤ) (hm : 0 < m) :
    UnpackedFloat.pack Format.binary64 (.finite s m e hm) =
      if 2 ^ 11 ≤ (e + (1023 : ℕ) + (52 : ℕ)).toNat + 1 then packedInfinity Format.binary64 s
      else if m.log2 + 1 = 53 then
        packComponents Format.binary64 s (BitVec.ofNat 11 (e + (1023 : ℕ) + (52 : ℕ)).toNat)
          (BitVec.ofNat 52 m)
      else packComponents Format.binary64 s 0#11 (BitVec.ofNat 52 m) := rfl

theorem pack_whole (s : Sign) {k p : ℕ} (hpos : 0 < k * 2 ^ p) (hp : k.log2 + p = 52) :
    UnpackedFloat.pack Format.binary64 (.finite s (k * 2 ^ p) (-p) hpos) =
      packComponents Format.binary64 s (BitVec.ofNat 11 (1075 - p))
        (BitVec.ofNat 52 (k * 2 ^ p)) := by
  have hk : k ≠ 0 := (Nat.pos_of_mul_pos_right hpos).ne'
  have hbiased : (-(p : ℤ) + (1023 : ℕ) + (52 : ℕ)).toNat = 1075 - p := by omega
  have hroom : ¬ 2 ^ 11 ≤ 1075 - p + 1 := by omega
  have hnormal : (k * 2 ^ p).log2 + 1 = 53 := by rw [log2_mul_two_pow hk, hp]
  rw [pack_finite, hbiased, if_neg hroom, if_pos hnormal]

/-- The sign of a packed float is its highest bit, in front of the exponent and the digits. -/
theorem sign_packComponents (s : Sign) (e : BitVec 11) (m : BitVec 52) :
    Sign.ofBitVec (unpackSign (packComponents Format.binary64 s e m)) = s := by
  have hbit : unpackSign (packComponents Format.binary64 s e m) = s.toBitVec :=
    calc BitVec.extractLsb' 63 1 (s.toBitVec ++ e ++ m)
      _ = BitVec.extractLsb' 11 1 (s.toBitVec ++ e) := BitVec.extractLsb'_append_eq_of_le (by decide)
      _ = BitVec.extractLsb' 0 1 s.toBitVec := BitVec.extractLsb'_append_eq_of_le (by decide)
      _ = s.toBitVec := BitVec.extractLsb'_eq_self
  rw [hbit]
  cases s <;> rfl

/-- Packing keeps a whole number. -/
theorem unpack_pack {u : UnpackedFloat} {n : ℤ} (hu : IsWhole u n) :
    (Float.Model.pack u).unpack = u := by
  change UnpackedFloat.unpack Format.binary64 (UnpackedFloat.pack Format.binary64 u) = u
  cases hu with
  | zero s => cases s <;> rfl
  | finite s k p hpos hp =>
      have hk : k ≠ 0 := (Nat.pos_of_mul_pos_right hpos).ne'
      have hlog : (k * 2 ^ p).log2 = 52 := by rw [log2_mul_two_pow hk, hp]
      obtain ⟨hlow, hhigh⟩ := (Nat.log2_eq_iff hpos.ne').mp hlog
      have hexponent : (BitVec.ofNat 11 (1075 - p)).toNat = 1075 - p := by
        rw [BitVec.toNat_ofNat]
        omega
      have hnormal : BitVec.ofNat 11 (1075 - p) ≠ 0#11 := by
        intro h
        have hzero : 1075 - p = 0 := hexponent.symm.trans (congrArg BitVec.toNat h)
        omega
      have hfinite : BitVec.ofNat 11 (1075 - p) ≠ -1#11 := by
        intro h
        have hones : 1075 - p = 2047 := hexponent.symm.trans (congrArg BitVec.toNat h)
        omega
      rw [pack_whole s hpos hp, unpack_eq, unpackMantissa_packComponents,
        unpackExponent_packComponents, if_neg hfinite, if_neg hnormal, UnpackedFloat.finite.injEq]
      refine ⟨sign_packComponents s _ _, ?_, ?_⟩
      · rw [toNat_append_one, BitVec.toNat_ofNat]
        omega
      · rw [hexponent]
        omega

end Amount

end WorkLedger
