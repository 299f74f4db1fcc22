import Mathlib.Data.List.Induction
import Mathlib.Tactic.Ring
import WorkLedger.Bytes.BigEndian
import WorkLedger.Difficulty
import WorkLedger.Proofs.Bytes.HexText

/-!
# Leading zeros

A byte string starts with `d` zero bits exactly if it has that many bits and the number that it
stands for, with the most significant byte first, lies below the power of two that the other bits
reach. The test of a difficulty decides this, byte by byte: a byte that has to be zero as a whole
takes eight bits of the difficulty, and the last byte is looked at through a mask. For a text the
bytes are those that it is the hexadecimal form of, in either case.
-/

namespace WorkLedger

namespace BigEndian

theorem toNat_cons (b : UInt8) (bytes : List UInt8) :
    toNat (b :: bytes) = b.toNat * 256 ^ bytes.length + toNat bytes := by
  induction bytes using List.reverseRecOn with
  | nil => simp [toNat]
  | append_singleton bytes last ih =>
      rw [← List.cons_append, toNat_append_singleton, ih, toNat_append_singleton,
        List.length_append, List.length_singleton, pow_succ]
      ring

theorem toNat_lt (bytes : List UInt8) : toNat bytes < 256 ^ bytes.length := by
  induction bytes with
  | nil => exact Nat.one_pos
  | cons b bytes ih =>
      have hb : b.toNat + 1 ≤ 256 := b.toNat_lt
      calc toNat (b :: bytes)
          = b.toNat * 256 ^ bytes.length + toNat bytes := toNat_cons b bytes
        _ < b.toNat * 256 ^ bytes.length + 256 ^ bytes.length := Nat.add_lt_add_left ih _
        _ = (b.toNat + 1) * 256 ^ bytes.length := by ring
        _ ≤ 256 * 256 ^ bytes.length := Nat.mul_le_mul_right _ hb
        _ = 256 ^ (b :: bytes).length := by rw [List.length_cons, pow_succ, mul_comm]

/-- Whether a number is below a multiple of a power of the base is settled by its first byte. -/
theorem toNat_cons_lt_iff (b : UInt8) (bytes : List UInt8) (bound : ℕ) :
    toNat (b :: bytes) < bound * 256 ^ bytes.length ↔ b.toNat < bound := by
  have hpos : 0 < 256 ^ bytes.length := Nat.pow_pos (by decide)
  have hfirst : toNat (b :: bytes) / 256 ^ bytes.length = b.toNat := by
    rw [toNat_cons, mul_comm, Nat.mul_add_div hpos, Nat.div_eq_of_lt (toNat_lt bytes), add_zero]
  rw [← Nat.div_lt_iff_lt_mul hpos, hfirst]

end BigEndian

namespace Difficulty

/-- A byte string starts with `d` zero bits: it has that many, and as a number with the most
significant byte first it needs only the others. -/
def LeadingZeros (hash : List UInt8) (d : ℕ) : Prop :=
  d ≤ 8 * hash.length ∧ BigEndian.toNat hash < 2 ^ (8 * hash.length - d)

instance (hash : List UInt8) (d : ℕ) : Decidable (LeadingZeros hash d) :=
  inferInstanceAs (Decidable (_ ∧ _))

/-- Up to eight zero bits are those of the first byte. -/
theorem leadingZeros_cons_iff_of_le (b : UInt8) (hash : List UInt8) {d : ℕ} (hd : d ≤ 8) :
    LeadingZeros (b :: hash) d ↔ b.toNat < 2 ^ (8 - d) := by
  have hlength : d ≤ 8 * (b :: hash).length := by
    rw [List.length_cons]
    omega
  have hbound : 2 ^ (8 * (b :: hash).length - d) = 2 ^ (8 - d) * 256 ^ hash.length := by
    have hsplit : 8 * (b :: hash).length - d = (8 - d) + 8 * hash.length := by
      rw [List.length_cons]
      omega
    rw [hsplit, pow_add, pow_mul]
    rfl
  rw [LeadingZeros, and_iff_right hlength, hbound, BigEndian.toNat_cons_lt_iff]

/-- More than eight zero bits are a first byte of zero and those of the other bytes. -/
theorem leadingZeros_cons_add_iff (b : UInt8) (hash : List UInt8) (d : ℕ) :
    LeadingZeros (b :: hash) (d + 8) ↔ b = 0 ∧ LeadingZeros hash d := by
  have hlength : 8 * (b :: hash).length = 8 * hash.length + 8 := by rw [List.length_cons]; ring
  rw [LeadingZeros, LeadingZeros, hlength, Nat.add_le_add_iff_right, Nat.add_sub_add_right,
    BigEndian.toNat_cons]
  constructor
  · rintro ⟨hd, hlt⟩
    have hzero : b.toNat = 0 := by
      by_contra hne
      have hone : 256 ^ hash.length ≤ b.toNat * 256 ^ hash.length :=
        Nat.le_mul_of_pos_left _ (Nat.pos_of_ne_zero hne)
      have hpow : 2 ^ (8 * hash.length - d) ≤ 256 ^ hash.length := by
        rw [show 256 = 2 ^ 8 from rfl, ← pow_mul]
        exact Nat.pow_le_pow_right (by decide) (Nat.sub_le _ _)
      omega
    rw [hzero, zero_mul, zero_add] at hlt
    exact ⟨UInt8.toNat_inj.mp hzero, hd, hlt⟩
  · rintro ⟨rfl, hd, hlt⟩
    rw [UInt8.toNat_zero, zero_mul, zero_add]
    exact ⟨hd, hlt⟩

theorem LeadingZeros.mono {hash : List UInt8} {d e : ℕ} (h : LeadingZeros hash d) (hle : e ≤ d) :
    LeadingZeros hash e :=
  ⟨hle.trans h.1, lt_of_lt_of_le h.2
    (Nat.pow_le_pow_right (by decide) (Nat.sub_le_sub_left hle _))⟩

theorem testBit_mask {kept : ℕ} (hkept : kept < 8) (i : ℕ) :
    ((0xFF : UInt8) <<< UInt8.ofNat kept).toNat.testBit i = decide (kept ≤ i ∧ i < 8) := by
  have hones : (0xFF : UInt8).toNat = 2 ^ 8 - 1 := rfl
  have hshift : (UInt8.ofNat kept).toNat % 8 = kept := by
    rw [UInt8.toNat_ofNat_of_lt' (by rw [UInt8.size]; omega), Nat.mod_eq_of_lt hkept]
  rw [UInt8.toNat_shiftLeft, hones, hshift, Nat.testBit_mod_two_pow, Nat.testBit_shiftLeft,
    Nat.testBit_two_pow_sub_one]
  rw [Bool.eq_iff_iff]
  simp only [Bool.and_eq_true, decide_eq_true_eq]
  omega

/-- Through the mask a byte is zero exactly if it needs only the bits that are masked out. -/
theorem and_mask_eq_zero_iff (byte : UInt8) {kept : ℕ} (hkept : kept < 8) :
    byte &&& (0xFF <<< UInt8.ofNat kept) = 0 ↔ byte.toNat < 2 ^ kept := by
  rw [← UInt8.toNat_inj, UInt8.toNat_and, UInt8.toNat_zero]
  constructor
  · intro hzero
    apply Nat.lt_pow_two_of_testBit
    intro i hi
    by_cases hlt : i < 8
    · have hbit := congrArg (fun n => Nat.testBit n i) hzero
      rw [Nat.testBit_and, testBit_mask hkept, decide_eq_true ⟨hi, hlt⟩, Bool.and_true,
        Nat.zero_testBit] at hbit
      exact hbit
    · exact Nat.testBit_lt_two_pow
        (lt_of_lt_of_le byte.toNat_lt (Nat.pow_le_pow_right (by decide) (not_lt.mp hlt)))
  · intro hbyte
    apply Nat.eq_of_testBit_eq
    intro i
    rw [Nat.testBit_and, testBit_mask hkept, Nat.zero_testBit, Bool.and_eq_false_iff]
    by_cases hi : kept ≤ i
    · exact Or.inl (Nat.testBit_lt_two_pow
        (lt_of_lt_of_le hbyte (Nat.pow_le_pow_right (by decide) hi)))
    · exact Or.inr (decide_eq_false fun h => hi h.1)

theorem meets_nil_iff (d : UInt32) : meets [] d = true ↔ d.toNat = 0 := by
  simp only [meets, List.length_nil, Nat.le_zero, List.take_nil, List.all_nil, Bool.and_true,
    List.getElem?_nil, Bool.or_false, Bool.and_eq_true, decide_eq_true_eq, beq_iff_eq]
  omega

/-- Below eight, only the first byte is looked at. -/
theorem meets_cons_iff_of_lt (b : UInt8) (hash : List UInt8) {d : UInt32} (hd : d.toNat < 8) :
    meets (b :: hash) d = true ↔ b.toNat < 2 ^ (8 - d.toNat) := by
  have hwhole : d.toNat / 8 = 0 := Nat.div_eq_of_lt hd
  have hbits : d.toNat % 8 = d.toNat := Nat.mod_eq_of_lt hd
  simp only [meets, hwhole, hbits, Nat.zero_le, decide_true, List.take_zero, List.all_nil,
    Bool.and_true, Bool.true_and, List.getElem?_cons_zero, Bool.or_eq_true, beq_iff_eq]
  by_cases hzero : d.toNat = 0
  · rw [hzero]
    simpa using b.toNat_lt
  · rw [and_mask_eq_zero_iff b (by omega), or_iff_right hzero]

/-- From eight on, the first byte has to be zero and the others meet what is left. -/
theorem meets_cons_iff_of_add (b : UInt8) (hash : List UInt8) {d e : UInt32}
    (hd : d.toNat = e.toNat + 8) :
    meets (b :: hash) d = true ↔ b = 0 ∧ meets hash e = true := by
  have hwhole : d.toNat / 8 = e.toNat / 8 + 1 := by omega
  have hbits : d.toNat % 8 = e.toNat % 8 := by omega
  simp only [meets, hwhole, hbits, List.length_cons, Nat.add_le_add_iff_right,
    List.take_succ_cons, List.all_cons, List.getElem?_cons_succ, Bool.and_eq_true, beq_iff_eq]
  tauto

/-- The test of a difficulty decides whether a byte string starts with that many zero bits. -/
theorem meets_iff (hash : List UInt8) (d : UInt32) :
    meets hash d = true ↔ LeadingZeros hash d.toNat := by
  induction hash generalizing d with
  | nil =>
      rw [meets_nil_iff]
      simp [LeadingZeros]
  | cons b hash ih =>
      by_cases hd : d.toNat < 8
      · rw [meets_cons_iff_of_lt b hash hd, leadingZeros_cons_iff_of_le b hash hd.le]
      · obtain ⟨e, he⟩ : ∃ e : UInt32, d.toNat = e.toNat + 8 := by
          refine ⟨d - 8, ?_⟩
          rw [UInt32.toNat_sub_of_le d 8 (UInt32.le_iff_toNat_le.mpr (not_lt.mp hd))]
          exact (Nat.sub_add_cancel (not_lt.mp hd)).symm
        rw [meets_cons_iff_of_add b hash he, ih, he, leadingZeros_cons_add_iff]

/-- The test of a difficulty on a text decides whether the text is the hexadecimal form, in either
case, of bytes that start with that many zero bits. -/
theorem metByHex_iff (text : String) (d : UInt32) :
    metByHex text d = true ↔
      ∃ bytes, text.toLower = Hex.encode bytes ∧ LeadingZeros bytes d.toNat := by
  simp only [← Hex.decode?_eq_some_iff, ← meets_iff, metByHex]
  cases Hex.decode? text <;> simp

/-- The test of a difficulty decides whether a byte string starts with that many zero bits, and on
a text, whether the text is the hexadecimal form of such bytes in either case, which a text is if
its length is even and all its characters are digits. So what meets a difficulty meets all lower
ones, and no hash of thirty-two bytes meets one above 256. -/
theorem meets_leadingZeros :
    (∀ hash d, meets hash d = true ↔ LeadingZeros hash d.toNat) ∧
      (∀ text d, metByHex text d = true ↔
        ∃ bytes, text.toLower = Hex.encode bytes ∧ LeadingZeros bytes d.toNat) ∧
      (∀ text : String, (∃ bytes, text.toLower = Hex.encode bytes) ↔
        2 ∣ text.length ∧ ∀ c ∈ text.toList, c.toLower ∈ Hex.lowerDigits) ∧
      (∀ hash d e, e ≤ d → meets hash d = true → meets hash e = true) ∧
      (∀ text d e, e ≤ d → metByHex text d = true → metByHex text e = true) ∧
      ∀ hash d, hash.length = 32 → 256 < d → meets hash d = false := by
  refine ⟨meets_iff, metByHex_iff, fun _ => Hex.exists_encode_iff, ?_, ?_, ?_⟩
  · intro hash d e hle hmet
    rw [meets_iff] at hmet ⊢
    exact hmet.mono (UInt32.le_iff_toNat_le.mp hle)
  · intro text d e hle hmet
    rw [metByHex_iff] at hmet ⊢
    obtain ⟨bytes, htext, hzeros⟩ := hmet
    exact ⟨bytes, htext, hzeros.mono (UInt32.le_iff_toNat_le.mp hle)⟩
  · intro hash d hlength hd
    have hbig : 256 < d.toNat := UInt32.lt_iff_toNat_lt.mp hd
    rw [Bool.eq_false_iff, Ne, meets_iff]
    rintro ⟨hbits, -⟩
    omega

theorem meets_leadingZeros_mixedCase :
    metByHex "000FfF" 12 = true ∧ metByHex "000FfF" 13 = false ∧
      (8 : UInt32) ≤ 12 ∧ metByHex "000FfF" 8 = true ∧
      meets [0, 0x0F, 0xFF] 12 = true ∧ meets [0, 0x0F, 0xFF] 8 = true ∧
      (List.replicate 32 0).length = 32 ∧ (256 : UInt32) < 257 ∧
      meets (List.replicate 32 0) 257 = false := by
  obtain ⟨hbytes, htexts, -, hlower, hlowerText, hlong⟩ := meets_leadingZeros
  have hmet : meets [0, 0x0F, 0xFF] 12 = true := by
    rw [hbytes]
    decide
  have hspelled : "000FfF".toLower = Hex.encode [0, 0x0F, 0xFF] := by decide +kernel
  have hmetText : metByHex "000FfF" 12 = true :=
    (htexts _ _).mpr ⟨_, hspelled, (hbytes _ _).mp hmet⟩
  exact ⟨hmetText, by decide +kernel, by decide, hlowerText _ 12 8 (by decide) hmetText, hmet,
    hlower _ 12 8 (by decide) hmet, by decide, by decide, hlong _ 257 (by decide) (by decide)⟩

end Difficulty

end WorkLedger
