import Mathlib.Data.List.FinRange
import Mathlib.Data.String.Basic
import WorkLedger.Bytes.Hex

/-!
# Hexadecimal texts

A text is read as some bytes exactly if it is their written form up to the case of its letters. Such
bytes exist exactly if the text consists of digits in pairs.
-/

namespace WorkLedger

namespace Hex

/-- A character stands for the digit that it is in lower case. -/
theorem value?_eq_some_iff {c : Char} {n : Fin 16} :
    value? c = some n.val ↔ c.toLower = digit n := by
  by_cases hsmall : c.toNat < 128
  · have hall : ∀ k < 128, ∀ n : Fin 16,
        value? (Char.ofNat k) = some n.val ↔ (Char.ofNat k).toLower = digit n := by
      decide +kernel
    have hc := hall c.toNat hsmall n
    rwa [Char.ofNat_toNat] at hc
  · -- Behind the first 128 characters there is no digit, and no letter that changes case.
    have hbehind : ∀ d : Char, d.toNat < 128 → ¬ c ≤ d := by
      intro d hd hle
      exact hsmall (lt_of_le_of_lt hle hd)
    have hnone : value? c = none := by
      rw [value?, if_neg fun h => hbehind '9' (by decide) h.2,
        if_neg fun h => hbehind 'f' (by decide) h.2, if_neg fun h => hbehind 'F' (by decide) h.2]
    have hsame : c.toLower = c := dif_neg fun h => hbehind 'Z' (by decide) h.2
    have hdigit : ∀ n : Fin 16, (digit n).toNat < 128 := by decide
    rw [hnone, hsame]
    constructor
    · intro h
      cases h
    · rintro rfl
      exact absurd (hdigit n) hsmall

theorem value?_lt {c : Char} {n : ℕ} (h : value? c = some n) : n < 16 := by
  unfold value? at h
  split at h
  next hc =>
    have hle : c.toNat ≤ 57 := hc.2
    cases h
    omega
  next =>
    split at h
    next hc =>
      have hle : c.toNat ≤ 102 := hc.2
      cases h
      omega
    next =>
      split at h
      next hc =>
        have hle : c.toNat ≤ 70 := hc.2
        cases h
        omega
      next => cases h

theorem bytes?_cons_cons {high low : Char} {rest : List Char} {b : UInt8} {bytes : List UInt8} :
    bytes? (high :: low :: rest) = some (b :: bytes) ↔
      value? high = some (b.toNat / 16) ∧ value? low = some (b.toNat % 16) ∧
        bytes? rest = some bytes := by
  rw [bytes?]
  constructor
  · intro h
    split at h
    next m n tail hm hn htail =>
      obtain ⟨rfl, rfl⟩ := List.cons_eq_cons.mp (Option.some.inj h)
      have hm16 := value?_lt hm
      have hn16 := value?_lt hn
      have hb : (UInt8.ofNat (m * 16 + n)).toNat = m * 16 + n :=
        UInt8.toNat_ofNat_of_lt' (by rw [UInt8.size]; omega)
      have hhigh : (m * 16 + n) / 16 = m := by omega
      have hlow : (m * 16 + n) % 16 = n := by omega
      rw [hb, hhigh, hlow]
      exact ⟨hm, hn, htail⟩
    next => cases h
  · rintro ⟨hhigh, hlow, htail⟩
    simp only [hhigh, hlow, htail, Nat.div_add_mod', UInt8.ofNat_toNat]

/-- Digits are read as the bytes that they are the form of in lower case. -/
theorem bytes?_eq_some_iff {cs : List Char} {bytes : List UInt8} :
    bytes? cs = some bytes ↔ cs.map Char.toLower = chars bytes := by
  induction bytes generalizing cs with
  | nil =>
      rcases cs with _ | ⟨high, _ | ⟨low, rest⟩⟩
      · simp [bytes?, chars]
      · simp [bytes?, chars]
      · rw [bytes?, chars, List.map_eq_nil_iff]
        split <;> simp
  | cons b bytes ih =>
      have hb := b.toNat_lt
      have hhigh : b.toNat / 16 % 16 = b.toNat / 16 := Nat.mod_eq_of_lt (by omega)
      rcases cs with _ | ⟨high, _ | ⟨low, rest⟩⟩
      · simp [bytes?, chars]
      · simp [bytes?, chars]
      · have hdigit : ∀ n, (Fin.ofNat 16 n).val = n % 16 := fun _ => rfl
        rw [bytes?_cons_cons, ih, chars, List.map_cons, List.map_cons, List.cons_eq_cons,
          List.cons_eq_cons, lastDigit, lastDigit, ← value?_eq_some_iff, ← value?_eq_some_iff,
          hdigit, hdigit, hhigh]

/-- A text is read as the bytes whose hexadecimal form it is in lower case. -/
theorem decode?_eq_some_iff {text : String} {bytes : List UInt8} :
    decode? text = some bytes ↔ text.toLower = encode bytes := by
  have hlower : text.toLower.toList = text.toList.map Char.toLower := String.toList_map
  rw [decode?, bytes?_eq_some_iff, ← String.toList_inj, encode, String.toList_ofList, hlower]

/-- The digits in lower case. -/
def lowerDigits : List Char := "0123456789abcdef".toList

theorem isSome_value?_iff {c : Char} : (value? c).isSome = true ↔ c.toLower ∈ lowerDigits := by
  have hdigits : lowerDigits = (List.finRange 16).map digit := by decide +kernel
  simp only [hdigits, List.mem_map, List.mem_finRange, true_and, Option.isSome_iff_exists]
  constructor
  · rintro ⟨n, hn⟩
    exact ⟨⟨n, value?_lt hn⟩, (value?_eq_some_iff.mp hn).symm⟩
  · rintro ⟨n, hn⟩
    exact ⟨n.val, value?_eq_some_iff.mpr hn.symm⟩

/-- Digits are read exactly if they come in pairs. -/
theorem isSome_bytes?_iff : ∀ cs : List Char,
    (bytes? cs).isSome = true ↔ 2 ∣ cs.length ∧ ∀ c ∈ cs, c.toLower ∈ lowerDigits
  | [] => by simp [bytes?]
  | [_] => by simp [bytes?]
  | high :: low :: rest => by
      have hread : (bytes? (high :: low :: rest)).isSome = true ↔
          (value? high).isSome = true ∧ (value? low).isSome = true ∧
            (bytes? rest).isSome = true := by
        rw [bytes?]
        cases value? high <;> cases value? low <;> cases bytes? rest <;> simp
      have heven : 2 ∣ (high :: low :: rest).length ↔ 2 ∣ rest.length := by
        rw [List.length_cons, List.length_cons]
        omega
      rw [hread, isSome_value?_iff, isSome_value?_iff, isSome_bytes?_iff rest, heven,
        List.forall_mem_cons, List.forall_mem_cons]
      tauto

/-- A text is in hexadecimal, in either case, exactly if it consists of pairs of digits. -/
theorem exists_encode_iff {text : String} : (∃ bytes, text.toLower = encode bytes) ↔
    2 ∣ text.length ∧ ∀ c ∈ text.toList, c.toLower ∈ lowerDigits := by
  simp only [← decode?_eq_some_iff, ← Option.isSome_iff_exists, decode?, isSome_bytes?_iff,
    String.length_toList]

end Hex

end WorkLedger
