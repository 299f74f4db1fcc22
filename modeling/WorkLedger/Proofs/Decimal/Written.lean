import Mathlib.Data.List.Basic
import Mathlib.Data.List.Induction
import Mathlib.Tactic.Ring
import WorkLedger.Amount

/-!
# How numbers are written

The digits of a number in a base have that number as their value, so different
natural numbers are written differently. No number contains a colon, a bar or a
bracket, which leaves these characters free to separate numbers from what comes
after them; amounts keep to that too, whatever float they are.
-/

namespace WorkLedger

namespace Radix

theorem value_cons {b : ℕ} (d : Fin b) (ds : List (Fin b)) :
    value (d :: ds) = d.val * b ^ ds.length + value ds := by
  induction ds using List.reverseRecOn with
  | nil => simp [value]
  | append_singleton ds e ih =>
      rw [← List.cons_append, value_append_singleton, ih, value_append_singleton,
        List.length_append, List.length_singleton, pow_succ]
      ring

theorem value_digitsOnto {b : ℕ} (hb : 0 < b) (hbase : 2 ≤ b) (bound n : ℕ)
    (hn : n < 2 ^ bound) (low : List (Fin b)) :
    value (digitsOnto b hb bound n low) = n * b ^ low.length + value low := by
  induction bound generalizing n low with
  | zero =>
      obtain rfl : n = 0 := by simpa using hn
      simp [digitsOnto]
  | succ bound ih =>
      by_cases hzero : n = 0
      · simp [digitsOnto, hzero]
      · have hquotient : n / b < 2 ^ bound := by
          have hle : n / b ≤ n / 2 := Nat.div_le_div_left hbase (by decide)
          have hlt : n / 2 < 2 ^ bound := by
            rw [pow_succ] at hn
            omega
          exact lt_of_le_of_lt hle hlt
        rw [digitsOnto, if_neg hzero, ih _ hquotient, value_cons, List.length_cons,
          pow_succ]
        have hsplit : n = n / b * b + n % b := (Nat.div_add_mod' n b).symm
        calc
          n / b * (b ^ low.length * b) + (n % b * b ^ low.length + value low)
              = (n / b * b + n % b) * b ^ low.length + value low := by ring
          _ = n * b ^ low.length + value low := by rw [← hsplit]

/-- The digits of a number have it as their value. -/
theorem value_digits {b : ℕ} (hb : 0 < b) (hbase : 2 ≤ b) (n : ℕ) :
    value (digits b hb n) = n := by
  rw [digits, value_digitsOnto hb hbase _ _ Nat.lt_log2_self]
  simp

end Radix

namespace Decimal

theorem value_natDigits (n : ℕ) : Radix.value (natDigits n) = n := by
  unfold natDigits
  by_cases hzero : n = 0
  · rw [if_pos hzero, hzero]
    rfl
  · rw [if_neg hzero, digits]
    exact Radix.value_digits (by decide) (by decide) n

theorem char_injective : Function.Injective Digit.char := by
  intro d e h
  have hread := congrArg Digit.ofChar? h
  rw [Digit.ofChar?_char, Digit.ofChar?_char] at hread
  exact Option.some.inj hread

theorem natChars_injective : Function.Injective natChars := by
  intro m n h
  have hdigits : natDigits m = natDigits n := List.map_injective_iff.mpr char_injective h
  rw [← value_natDigits m, hdigits, value_natDigits]

theorem eq_of_wordChars {m n : UInt64} (h : natChars m.toNat = natChars n.toNat) : m = n :=
  UInt64.toNat_inj.mp (natChars_injective h)

/-- The characters that stand between numbers and other texts. -/
def isMark (c : Char) : Bool := c == ':' || c == '|' || c == '[' || c == ']'

theorem isMark_char (d : Digit) : isMark d.char = false := by
  revert d
  decide

theorem isMark_of_mem_map {ds : List Digit} {c : Char} (h : c ∈ ds.map Digit.char) :
    isMark c = false := by
  obtain ⟨d, _, rfl⟩ := List.mem_map.mp h
  exact isMark_char d

theorem isMark_of_mem_natChars {n : ℕ} {c : Char} (h : c ∈ natChars n) :
    isMark c = false := by
  exact isMark_of_mem_map h

theorem colon_not_mem_natChars (n : ℕ) : ':' ∉ natChars n := by
  intro hmem
  have hmark := isMark_of_mem_natChars hmem
  cases hmark

end Decimal

/-- A numeral is written without any mark. -/
theorem Numeral.isMark_of_mem_chars {n : Numeral} {c : Char} (h : c ∈ n.chars) :
    Decimal.isMark c = false := by
  rw [chars, List.mem_append, List.mem_append, List.mem_append] at h
  rcases h with ((hsign | hwhole) | hfraction) | hexponent
  · by_cases hnegative : n.negative = true
    · rw [if_pos hnegative, List.mem_singleton] at hsign
      rw [hsign]
      rfl
    · rw [if_neg hnegative] at hsign
      cases hsign
  · exact Decimal.isMark_of_mem_map hwhole
  · by_cases hempty : n.fraction.isEmpty = true
    · rw [if_pos hempty] at hfraction
      cases hfraction
    · rw [if_neg hempty] at hfraction
      rcases List.mem_cons.mp hfraction with rfl | hdigit
      · rfl
      · exact Decimal.isMark_of_mem_map hdigit
  · cases he : n.exponent with
    | none =>
        rw [he] at hexponent
        cases hexponent
    | some e =>
        rw [he] at hexponent
        rcases List.mem_cons.mp hexponent with rfl | htail
        · rfl
        · rcases List.mem_cons.mp htail with hsign | hdigit
          · rw [hsign]
            cases e.negative <;> rfl
          · exact Decimal.isMark_of_mem_map hdigit

/-- An amount is written without any mark. -/
theorem Amount.isMark_of_mem_chars {x : Float} {c : Char} (h : c ∈ Amount.chars x) :
    Decimal.isMark c = false := by
  unfold chars at h
  split at h
  · exact Numeral.isMark_of_mem_chars h
  · have hname : ∀ c ∈ ['N', 'a', 'N'], Decimal.isMark c = false := by
      simp [Decimal.isMark]
    have hinfinite : ∀ c ∈ ['-', 'i', 'n', 'f'], Decimal.isMark c = false := by
      simp [Decimal.isMark]
    split at h
    · exact hname c h
    · split at h
      · exact hinfinite c h
      · exact hinfinite c (List.mem_cons_of_mem '-' h)

end WorkLedger
