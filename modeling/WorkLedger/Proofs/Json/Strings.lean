import Mathlib.Data.List.Basic
import WorkLedger.Json.Parser
import WorkLedger.Json.Printer

/-!
# Strings in JSON

A character of a string is written as itself, as a short escape or as a code, and
read as one unit, which stands for that character again. No code that is written is
a surrogate, so units are never joined.
-/

namespace WorkLedger.Json

/-- The unit that a written character is read as: control characters without a short
escape are codes. -/
def unitOf (c : Char) : StringUnit :=
  if (shortEscape? c).isNone && c.toNat < 0x20 then .inr c.toNat else .inl c

theorem shortEscape?_eq_some {c letter : Char} (h : shortEscape? c = some letter) :
    letter ≠ 'u' ∧ unescape? letter = some c := by
  unfold shortEscape? at h
  split_ifs at h with hquote hbackslash hline htab hreturn hback hfeed
  · subst hquote
    cases h
    decide
  · subst hbackslash
    cases h
    decide
  · subst hline
    cases h
    decide
  · subst htab
    cases h
    decide
  · subst hreturn
    cases h
    decide
  · cases h
    rw [← Char.ofNat_toNat c, hback]
    decide
  · cases h
    rw [← Char.ofNat_toNat c, hfeed]
    decide

theorem shortEscape?_eq_none {c : Char} (h : shortEscape? c = none) : c ≠ '"' ∧ c ≠ '\\' := by
  constructor <;> rintro rfl <;> cases h

theorem code?_lastDigit {n : ℕ} (h : n < 32) :
    code? '0' '0' (Hex.lastDigit (n / 16)) (Hex.lastDigit n) = some n := by
  revert n
  decide

theorem takeUnits?_letter {letter c : Char} (hne : letter ≠ 'u')
    (hc : unescape? letter = some c) (cs : List Char) :
    takeUnits? ('\\' :: letter :: cs) = (takeUnits? cs).map fun x => (.inl c :: x.1, x.2) := by
  rw [takeUnits?.eq_def]
  split
  next h => cases h
  next h => simp at h
  next h =>
    cases h
    exact absurd rfl hne
  next h =>
    cases h
    rw [hc]
  next hescape h =>
    cases h
    exact (hescape letter cs rfl rfl).elim

theorem takeUnits?_plain {c : Char} (hquote : c ≠ '"') (hbackslash : c ≠ '\\')
    (hcontrol : ¬ c.toNat < 32) (cs : List Char) :
    takeUnits? (c :: cs) = (takeUnits? cs).map fun x => (.inl c :: x.1, x.2) := by
  rw [takeUnits?.eq_def]
  split
  next h => cases h
  next h =>
    cases h
    exact absurd rfl hquote
  next h =>
    cases h
    exact absurd rfl hbackslash
  next h =>
    cases h
    exact absurd rfl hbackslash
  next h =>
    cases h
    rw [if_neg (not_or.mpr ⟨hcontrol, hbackslash⟩)]

/-- A written character is read as its unit. -/
theorem takeUnits?_escape (c : Char) (cs : List Char) :
    takeUnits? (escape c ++ cs) = (takeUnits? cs).map fun x => (unitOf c :: x.1, x.2) := by
  rw [escape, unitOf]
  cases hshort : shortEscape? c with
  | some letter =>
      obtain ⟨hne, hc⟩ := shortEscape?_eq_some hshort
      exact takeUnits?_letter hne hc cs
  | none =>
      obtain ⟨hquote, hbackslash⟩ := shortEscape?_eq_none hshort
      by_cases hcontrol : c.toNat < 32
      · simp [hcontrol, takeUnits?, code?_lastDigit hcontrol]
      · simp [hcontrol, takeUnits?_plain hquote hbackslash hcontrol]

/-- A string is read as its units, up to its closing quote. -/
theorem takeUnits?_flatMap_escape (cs rest : List Char) :
    takeUnits? (cs.flatMap escape ++ '"' :: rest) = some (cs.map unitOf, rest) := by
  induction cs with
  | nil => rfl
  | cons c cs ih =>
      rw [List.flatMap_cons, List.append_assoc, takeUnits?_escape, ih]
      rfl

theorem joinUnits?_inr {n : ℕ} (hhigh : isHighSurrogate n = false)
    (hlow : isLowSurrogate n = false) (units : List StringUnit) :
    joinUnits? (.inr n :: units) = (joinUnits? units).map (Char.ofNat n :: ·) := by
  cases units with
  | nil => simp [joinUnits?, hhigh, hlow]
  | cons unit units => cases unit <;> simp [joinUnits?, hhigh, hlow]

/-- The units of written characters stand for these characters. -/
theorem joinUnits?_map_unitOf (cs : List Char) : joinUnits? (cs.map unitOf) = some cs := by
  induction cs with
  | nil => rfl
  | cons c cs ih =>
      rw [List.map_cons, unitOf]
      split
      next hcode =>
        have hlt : c.toNat < 32 := by
          simp only [Bool.and_eq_true, decide_eq_true_eq] at hcode
          exact hcode.2
        have hhigh : isHighSurrogate c.toNat = false := by
          simp only [isHighSurrogate, Bool.and_eq_false_imp, decide_eq_true_eq,
            decide_eq_false_iff_not]
          omega
        have hlow : isLowSurrogate c.toNat = false := by
          simp only [isLowSurrogate, Bool.and_eq_false_imp, decide_eq_true_eq,
            decide_eq_false_iff_not]
          omega
        rw [joinUnits?_inr hhigh hlow, ih, Char.ofNat_toNat]
        rfl
      next =>
        rw [joinUnits?, ih]
        rfl

end WorkLedger.Json
