import WorkLedger.Decimal.Scaling
import WorkLedger.Proofs.Amount.Whole
import WorkLedger.Proofs.Decimal.Written

/-!
# Exponents of floats

A float is infinite only if its exponent is too large. However a product is rounded, its
exponent is hardly more than the sum of those of its factors (`HasExponent`). So the
numeral of a word is read as a finite float, and every finite float has a numeral.
-/

namespace WorkLedger

namespace Amount

open Float.Model Float.Model.UnpackedFloat

/-- The unpacked floats with an exponent of at most `b`: zero, or digits with such an
exponent. -/
inductive HasExponent (b : ℤ) : UnpackedFloat → Prop
  | zero (s : Sign) : HasExponent b (.zero s)
  | finite (s : Sign) (m : ℕ) (e : ℤ) (hm : 0 < m) (he : e ≤ b) : HasExponent b (.finite s m e hm)

theorem HasExponent.isFinite {b : ℤ} {u : UnpackedFloat} (hu : HasExponent b u) :
    u.isFinite = true := by
  cases hu <;> rfl

theorem HasExponent.dite {b : ℤ} {p : Prop} [Decidable p] {u : p → UnpackedFloat}
    {v : ¬ p → UnpackedFloat} (hu : ∀ h, HasExponent b (u h)) (hv : ∀ h, HasExponent b (v h)) :
    HasExponent b (if h : p then u h else v h) := by
  by_cases h : p
  · rw [dif_pos h]
    exact hu h
  · rw [dif_neg h]
    exact hv h

theorem hasExponent_of_isWhole {u : UnpackedFloat} {n : ℤ} (hu : IsWhole u n) :
    HasExponent 0 u := by
  cases hu with
  | zero s => exact .zero s
  | finite s k p hpos hp => exact .finite s _ _ hpos (by omega)

theorem mantissa_repeat_le (em : ExtendedMantissa) (n : ℕ) :
    (n.repeat ExtendedMantissa.shiftRightOne em).mantissa ≤ em.mantissa := by
  induction n with
  | zero => exact le_rfl
  | succ n ih => exact (Nat.div_le_self _ 2).trans ih

theorem roundedMantissa_le (em : ExtendedMantissa) : em.roundedMantissa ≤ em.mantissa + 1 := by
  obtain ⟨m, r, s⟩ := em
  cases r <;> cases s <;>
    simp only [ExtendedMantissa.roundedMantissa, ExtendedMantissa.accuracy,
      Accuracy.roundToNearestEven] <;> omega

section

variable {b e : ℤ} (hb : -1074 ≤ b) (he : e ≤ b)

include hb he

theorem shiftToTargetExponent_le {m : ℕ} (hm : m < 2 ^ 128) :
    (shiftToTargetExponent Format.binary64 m e .exact).1.mantissa ≤ m ∧
      (shiftToTargetExponent Format.binary64 m e .exact).2 ≤ b + 75 := by
  refine ⟨mantissa_repeat_le ⟨m, false, false⟩ _, ?_⟩
  have hlog : m.log2 < 128 := by
    rcases eq_or_ne m 0 with rfl | hne
    · decide
    · exact (Nat.log2_lt hne).mpr hm
  rw [shiftToTargetExponent, shiftToExponent, targetExponent_eq, totalExponent]
  dsimp only
  omega

theorem hasExponent_roundWithAccuracy (s : Sign) {m : ℕ} (hm : m < 2 ^ 127) :
    HasExponent (b + 150) (roundWithAccuracy Format.binary64 s m e .exact) := by
  -- the digits are moved once to be rounded, and once more if that made them too long
  obtain ⟨hmantissa, hexponent⟩ := shiftToTargetExponent_le hb he (m := m) (by omega)
  have hrounded := roundedMantissa_le (shiftToTargetExponent Format.binary64 m e .exact).1
  have hagain := (shiftToTargetExponent_le (by omega) hexponent
    (m := (shiftToTargetExponent Format.binary64 m e .exact).1.roundedMantissa) (by omega)).2
  rw [roundWithAccuracy_of_shift s rfl rfl]
  exact .dite (fun _ => .zero s) fun _ => .finite s _ _ _ (by omega)

end

theorem hasExponent_unpack_packComponents (s : Sign) {v : BitVec 11} (d : BitVec 52) {b : ℤ}
    (hlow : -1074 ≤ b) (hv : v.toNat < 2047) (hb : (v.toNat : ℤ) ≤ b + 1075) :
    HasExponent b (UnpackedFloat.unpack Format.binary64
      (packComponents Format.binary64 s v d)) := by
  have hones : v ≠ -1#11 := by
    rintro rfl
    exact absurd hv (by decide)
  rw [unpack_eq, unpackMantissa_packComponents, unpackExponent_packComponents, if_neg hones]
  by_cases hzero : v = 0#11
  · rw [if_pos hzero]
    refine .dite (fun _ => .zero _) fun _ => .finite _ _ _ _ ?_
    rw [hzero, BitVec.toNat_zero]
    omega
  · rw [if_neg hzero]
    exact .finite _ _ _ _ (by omega)

/-- Packing keeps an exponent that is not too large. -/
theorem hasExponent_unpack_pack {b : ℤ} (hlow : -1074 ≤ b) (hhigh : b ≤ 900) {u : UnpackedFloat}
    (hu : HasExponent b u) : HasExponent b (Float.Model.pack u).unpack := by
  change HasExponent b (UnpackedFloat.unpack Format.binary64 (UnpackedFloat.pack Format.binary64 u))
  cases hu with
  | zero s => cases s <;> exact .zero _
  | finite s m e hm he =>
      have hroom : ¬ 2 ^ 11 ≤ (e + (1023 : ℕ) + (52 : ℕ)).toNat + 1 := by omega
      have hvalue : (BitVec.ofNat 11 (e + (1023 : ℕ) + (52 : ℕ)).toNat).toNat =
          (e + (1023 : ℕ) + (52 : ℕ)).toNat := by
        rw [BitVec.toNat_ofNat]
        omega
      rw [pack_finite, if_neg hroom]
      split
      · apply hasExponent_unpack_packComponents s _ hlow
        · exact lt_of_eq_of_lt hvalue (by omega)
        · exact le_of_eq_of_le (congrArg Nat.cast hvalue) (by omega)
      · apply hasExponent_unpack_packComponents s _ hlow
        · decide
        · change (0 : ℤ) ≤ b + 1075
          omega

theorem hasExponent_mul_finite (s t : Sign) {m l : ℕ} {e f b : ℤ} (hm : 0 < m) (hl : 0 < l)
    (hb : -1074 ≤ b) (he : e + f ≤ b) (hproduct : m * l < 2 ^ 127) :
    HasExponent (b + 150) (UnpackedFloat.mul Format.binary64 (.finite s m e hm)
      (.finite t l f hl)) :=
  hasExponent_roundWithAccuracy hb he (s * t) hproduct

section

variable {x y : Float} {b c : ℤ} (hx : HasExponent b x.toModel.unpack)
  (hy : HasExponent c y.toModel.unpack) (hlow : -1074 ≤ b + c) (hhigh : b + c ≤ 750)

include hx hy hlow hhigh

theorem hasExponent_mul : HasExponent (b + c + 150) (x * y).toModel.unpack := by
  refine hasExponent_unpack_pack (by omega) (by omega) ?_
  generalize hu : x.toModel.unpack = u at hx
  generalize hv : y.toModel.unpack = v at hy
  cases hx with
  | zero s => cases hy <;> exact .zero _
  | finite s m e hm he =>
      cases hy with
      | zero t => exact .zero _
      | finite t l f hl hf =>
          have hproduct : m * l < 2 ^ 53 * 2 ^ 53 :=
            Nat.mul_lt_mul'' (digits_of_unpack hu).1 (digits_of_unpack hv).1
          exact hasExponent_mul_finite s t hm hl hlow (add_le_add he hf) (by omega)

end

theorem hasExponent_one : HasExponent 0 (Float.exactlyRepresentablePowersOfTen[0]).toModel.unpack :=
  hasExponent_unpack_pack (b := 0) (by decide) (by decide)
    (.finite .positive (2 ^ 52) (-52) (by decide) (by decide))

theorem hasExponent_toFloat {w : UInt64} (hw : w.toNat < 2 ^ 53) :
    HasExponent 0 w.toFloat.toModel.unpack := by
  have hwhole := isWhole_normalize (z := w.toNat) hw 0 .positive
  rw [pow_zero, mul_one] at hwhole
  exact hasExponent_unpack_pack (by decide) (by decide) (hasExponent_of_isWhole hwhole)

/-- A word that is too long for a float is rounded. -/
theorem hasExponent_ofScientific {k : ℕ} (hpos : k ≠ 0) (hk : k < 2 ^ 64) :
    HasExponent 150 (UnpackedFloat.ofScientific Format.binary64 k 0) := by
  have hproduct : k <<< 53 * 10 ^ (0 : ℤ).toNat < 2 ^ 127 := by
    rw [Nat.shiftLeft_eq]
    change k * 2 ^ 53 * 1 < 2 ^ 127
    omega
  have hlow : ¬ (0 : ℤ) < -(2 ^ Format.binary64.exponentBits + k.log2) := by
    change ¬ (0 : ℤ) < -(2 ^ 11 + k.log2)
    omega
  rw [UnpackedFloat.ofScientific, dif_neg hpos, if_neg (by decide), if_neg hlow, if_pos le_rfl]
  exact hasExponent_mul_finite (b := 0) _ _ _ _ (by decide) (by decide) hproduct

/-- The float of a word is finite by far. -/
theorem hasExponent_ofNat {k : ℕ} (hk : k < 2 ^ 64) :
    HasExponent 150 (Float.ofNat k).toModel.unpack := by
  change HasExponent 150 (Float.ofScientific k false 0).toModel.unpack
  rw [Float.ofScientific]
  split
  next hsmall =>
    have hword : k.toUInt64.toNat = k := Nat.mod_eq_of_lt hk
    exact hasExponent_mul (hasExponent_toFloat (by omega)) hasExponent_one (by decide) (by decide)
  next hlarge =>
    exact hasExponent_unpack_pack (by decide) (by decide)
      (hasExponent_ofScientific (by rintro rfl; exact hlarge (by decide)) hk)

theorem toNat_unpackExponent (b : BitVec 64) :
    (@unpackExponent Format.binary64 b).toNat = b.toNat / 2 ^ 52 % 2 ^ 11 := by
  rw [unpackExponent, BitVec.toNat_cast, BitVec.extractLsb_toNat, Nat.shiftRight_eq_div_pow]
  rfl

/-- Only the floats that are not finite have all the bits of an exponent. -/
theorem biased_ne_of_isFinite {x : Float} (hx : x.isFinite = true) :
    x.toBits.toNat / 2 ^ 52 % 2 ^ 11 ≠ 2047 := by
  intro hbiased
  change (UnpackedFloat.unpack Format.binary64 x.toBits.toBitVec).isFinite = true at hx
  have hones : @unpackExponent Format.binary64 x.toBits.toBitVec = -1#11 := by
    apply BitVec.eq_of_toNat_eq
    exact (toNat_unpackExponent _).trans hbiased
  rw [unpack_eq, if_pos hones] at hx
  split at hx <;> cases hx

/-- Every finite amount has a numeral. -/
theorem exists_numeral {x : Float} (hx : x.isFinite = true) : ∃ n, numeral? x = some n := by
  have hbiased : ¬ x.toBits.toNat / 0x10000000000000 % 0x800 = 2047 := biased_ne_of_isFinite hx
  rw [numeral?, Decimal.Layout.ofFloat?, Decimal.kindOfBits]
  simp only [if_neg hbiased]
  split
  next heq => split_ifs at heq
  next heq => split_ifs at heq
  next => exact ⟨_, rfl⟩
  next => exact ⟨_, rfl⟩

end Amount

namespace Decimal

/-- Digits that make a word are all taken. -/
theorem takeWord_eq {n : ℕ} {ds : List Digit}
    (h : n * 10 ^ ds.length + Radix.value ds < UInt64.size) :
    takeWord n ds = (n * 10 ^ ds.length + Radix.value ds, []) := by
  induction ds generalizing n with
  | nil => simp [takeWord]
  | cons d ds ih =>
      have hstep : n * 10 ^ (d :: ds).length + Radix.value (d :: ds) =
          (n * 10 + d.val) * 10 ^ ds.length + Radix.value ds := by
        rw [Radix.value_cons, List.length_cons, pow_succ]
        ring
      rw [hstep] at h ⊢
      have hle : n * 10 + d.val ≤ (n * 10 + d.val) * 10 ^ ds.length :=
        Nat.le_mul_of_pos_right _ (by positivity)
      rw [takeWord, if_pos (by omega), ih h]

end Decimal

/-- The numeral of a word is read as a finite float. -/
theorem Numeral.isFinite_toFloat_ofNat {k : ℕ} (hk : k < UInt64.size) :
    (ofNat k).toFloat.isFinite = true := by
  have hvalue : 0 * 10 ^ (Decimal.natDigits k).length + Radix.value (Decimal.natDigits k) = k := by
    rw [zero_mul, zero_add, Decimal.value_natDigits]
  have htake : Decimal.takeWord 0 (Decimal.natDigits k) = (k, []) := by
    rw [Decimal.takeWord_eq (by rwa [hvalue]), hvalue]
  have hword : (ofNat k).toWord = (k, 0) := by
    simp only [toWord, ofNat, htake, Decimal.takeWord]
    rfl
  have hfloat : (ofNat k).toFloat = Float.ofNat k * Decimal.tenTo 0 := by
    simp only [toFloat, hword]
    rfl
  have hone : Amount.HasExponent 150 (Decimal.tenTo 0).toModel.unpack :=
    Amount.hasExponent_ofNat (k := 1) (by decide)
  rw [hfloat]
  exact (Amount.hasExponent_mul (Amount.hasExponent_ofNat hk) hone (by decide) (by decide)).isFinite

end WorkLedger
