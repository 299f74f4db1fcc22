import Mathlib.Data.List.Basic
import Mathlib.Data.String.Basic
import Mathlib.Order.Fin.Basic
import WorkLedger.Proofs.Decimal.Leading

/-!
# Padded numbers

Digit strings of one length are in the order of their values, since the first digit in which they
differ outweighs all digits behind it. Numbers that are filled up with zeros to one width are
therefore in their order as texts, whatever follows them.
-/

namespace WorkLedger

namespace Radix

variable {b : ℕ}

theorem value_lt (ds : List (Fin b)) : value ds < b ^ ds.length := by
  induction ds with
  | nil => exact Nat.one_pos
  | cons d ds ih =>
      have hstep : (d.val + 1) * b ^ ds.length ≤ b * b ^ ds.length :=
        Nat.mul_le_mul_right _ d.isLt
      rw [value_cons, List.length_cons, pow_succ']
      rw [Nat.succ_mul] at hstep
      omega

theorem pow_le_value {d : Fin b} (hd : d.val ≠ 0) (ds : List (Fin b)) :
    b ^ ds.length ≤ value (d :: ds) := by
  rw [value_cons]
  exact le_trans (Nat.le_mul_of_pos_left _ (Nat.pos_of_ne_zero hd)) (Nat.le_add_right _ _)

/-- Of digit strings of one length, the one with the smaller value has the smaller first digit or
agrees in it. -/
theorem lt_or_eq_of_value_lt {d e : Fin b} {ds es : List (Fin b)} (hlength : ds.length = es.length)
    (h : value (d :: ds) < value (e :: es)) : d < e ∨ d = e ∧ value ds < value es := by
  rw [value_cons, value_cons, ← hlength] at h
  rcases lt_trichotomy d e with hlt | rfl | hgt
  · exact Or.inl hlt
  · exact Or.inr ⟨rfl, Nat.lt_of_add_lt_add_left h⟩
  · have hstep : (e.val + 1) * b ^ ds.length ≤ d.val * b ^ ds.length :=
      Nat.mul_le_mul_right _ hgt
    have hrest := value_lt es
    rw [Nat.succ_mul] at hstep
    rw [← hlength] at hrest
    omega

end Radix

namespace Decimal

theorem char_lt {d e : Digit} (h : d < e) : d.char < e.char := by
  revert d e
  decide

theorem map_char_append_lt {ds es : List Digit} (hlength : ds.length = es.length)
    (h : Radix.value ds < Radix.value es) (s t : List Char) :
    ds.map Digit.char ++ s < es.map Digit.char ++ t := by
  induction ds generalizing es with
  | nil =>
      rw [List.eq_nil_of_length_eq_zero hlength.symm] at h
      exact absurd h (lt_irrefl _)
  | cons d ds ih =>
      cases es with
      | nil => cases hlength
      | cons e es =>
          have hrest := Nat.succ.inj hlength
          rw [List.map_cons, List.map_cons, List.cons_append, List.cons_append,
            List.cons_lt_cons_iff]
          rcases Radix.lt_or_eq_of_value_lt hrest h with hlt | ⟨rfl, hvalue⟩
          · exact Or.inl (char_lt hlt)
          · exact Or.inr ⟨rfl, ih hrest hvalue⟩

theorem utf8Len_map_char (ds : List Digit) : String.utf8Len (ds.map Digit.char) = ds.length := by
  have hchar : ∀ d : Digit, d.char.utf8Size = 1 := by decide
  induction ds with
  | nil => rfl
  | cons d ds ih => rw [List.map_cons, String.utf8Len_cons, ih, hchar, List.length_cons]

/-- The digits of a number, filled up with zeros to a width. -/
def paddedDigits (width n : ℕ) : List Digit :=
  List.replicate (width - (natDigits n).length) Digit.zero ++ natDigits n

theorem toList_paddedText (width n : ℕ) :
    (paddedText width n).toList = (paddedDigits width n).map Digit.char := by
  rw [paddedText, String.toList_ofList, paddedDigits, List.map_append, List.map_replicate,
    natChars, List.length_map]
  rfl

theorem value_paddedDigits (width n : ℕ) : Radix.value (paddedDigits width n) = n := by
  rw [paddedDigits]
  induction width - (natDigits n).length with
  | zero => exact value_natDigits n
  | succ zeros ih =>
      rw [List.replicate_succ, List.cons_append, Radix.value_cons, ih]
      exact (congrArg (· + n) (Nat.zero_mul _)).trans (Nat.zero_add n)

variable {width m n : ℕ} (hn : n < 10 ^ width)

include hn

theorem length_natDigits_le (hwidth : 0 < width) : (natDigits n).length ≤ width := by
  unfold natDigits
  by_cases hzero : n = 0
  · rw [if_pos hzero]
    exact hwidth
  · obtain ⟨d, ds, hdigits, hd⟩ := exists_digits hzero
    have hpow := Radix.pow_le_value (fun h => hd (Fin.ext h)) ds
    rw [if_neg hzero]
    rw [← hdigits, digits, Radix.value_digits (by decide) (by decide)] at hpow
    rw [hdigits]
    exact (Nat.pow_lt_pow_iff_right (by decide)).mp (lt_of_le_of_lt hpow hn)

theorem length_paddedDigits (hwidth : 0 < width) : (paddedDigits width n).length = width := by
  have hle := length_natDigits_le hn hwidth
  rw [paddedDigits, List.length_append, List.length_replicate]
  omega

theorem utf8ByteSize_paddedText (hwidth : 0 < width) :
    (paddedText width n).utf8ByteSize = width := by
  rw [← String.utf8Len_toList, toList_paddedText, utf8Len_map_char, length_paddedDigits hn hwidth]

/-- Padded numbers are in their order as texts. -/
theorem paddedText_append_lt (hwidth : 0 < width) (hmn : m < n) (s t : String) :
    paddedText width m ++ s < paddedText width n ++ t := by
  have hlength : (paddedDigits width m).length = (paddedDigits width n).length := by
    rw [length_paddedDigits (hmn.trans hn) hwidth, length_paddedDigits hn hwidth]
  rw [String.lt_iff_toList_lt, String.toList_append, String.toList_append, toList_paddedText,
    toList_paddedText]
  refine map_char_append_lt hlength ?_ _ _
  rwa [value_paddedDigits, value_paddedDigits]

end Decimal

end WorkLedger
