import Mathlib.Algebra.Ring.Nat
import WorkLedger.Chain.Retarget
import WorkLedger.Proofs.Chain.Position

/-!
# Difficulties along a chain

In a chain whose blocks stand in place, the difficulty of the next block is that of the last one,
unless its position is a multiple of ten. Then the time that the last ten blocks took decides: the
difficulty goes up by one, or down by one, or stays. So if all blocks of a chain were given the
difficulty of their time, no difficulty is further from that of the second block than there were
multiples of ten on the way.
-/

namespace WorkLedger.Chain

/-- What a difficulty becomes after an interval of some seconds. It is a word of 32 bits. -/
def adjusted (d seconds : ℕ) : ℕ :=
  if seconds < 30 then min (d + 1) (2 ^ 32 - 1) else if 120 < seconds then d - 1 else d

theorem adjusted_le (d seconds : ℕ) : adjusted d seconds ≤ d + 1 := by
  unfold adjusted
  split_ifs <;> omega

theorem le_adjusted {d : ℕ} (hd : d < 2 ^ 32) (seconds : ℕ) : d ≤ adjusted d seconds + 1 := by
  unfold adjusted
  split_ifs <;> omega

/-- A difficulty of zero stays if the interval took long enough. -/
theorem adjusted_zero {seconds : ℕ} (h : 30 ≤ seconds) : adjusted 0 seconds = 0 := by
  rw [adjusted, if_neg (not_lt.mpr h), Nat.zero_sub, ite_self]

theorem toNat_raised (d : UInt32) : (raised d).toNat = min (d.toNat + 1) (2 ^ 32 - 1) := by
  have hd := d.toNat_lt
  unfold raised
  split
  · next hlt =>
      have hword : d.toNat + 1 < 2 ^ 32 := hlt
      rw [UInt32.toNat_add, UInt32.toNat_one, Nat.mod_eq_of_lt hword,
        Nat.min_eq_left (Nat.le_sub_one_of_lt hword)]
  · next hlast =>
      have hword : 2 ^ 32 ≤ d.toNat + 1 := not_lt.mp hlast
      omega

theorem toNat_lowered (d : UInt32) : (lowered d).toNat = d.toNat - 1 := by
  unfold lowered
  split
  · next hzero => rw [hzero]; rfl
  · next hpos =>
      have hone : (1 : UInt32) ≤ d := by
        rw [UInt32.le_iff_toNat_le, UInt32.toNat_one]
        exact Nat.pos_of_ne_zero fun h => hpos (UInt32.toNat_inj.mp h)
      rw [UInt32.toNat_sub_of_le _ _ hone, UInt32.toNat_one]

theorem toNat_retarget (d : UInt32) (seconds : ℕ) :
    (retarget d seconds).toNat = adjusted d.toNat seconds := by
  have hrule : retarget d seconds =
      if seconds < 30 then raised d else if 120 < seconds then lowered d else d := rfl
  rw [hrule, adjusted]
  split_ifs
  · exact toNat_raised d
  · exact toNat_lowered d
  · rfl

section

variable {c : Chain} (hc : c.InPlace) {tail : Block} (htail : c.tail? = some tail)

include hc htail

theorem nextDifficulty_eq (initial : UInt32) : c.nextDifficulty initial =
    if 1 < c.blocks.length then c.adjustedDifficulty else initial := by
  have hpos : tail.index > 0 ↔ 1 < c.blocks.length := by
    rw [gt_iff_lt, UInt64.lt_iff_toNat_lt, UInt64.toNat_zero, ← hc.toNat_index_tail htail,
      Nat.lt_add_left_iff_pos]
  rw [nextDifficulty, htail]
  exact if_congr hpos rfl rfl

variable (hfits : c.Fits)

include hfits

theorem next_mod_interval :
    ((tail.index + 1) % UInt64.ofNat interval != 0) = true ↔ ¬ 10 ∣ c.blocks.length := by
  rw [bne_iff_ne, Ne, ← UInt64.toNat_inj, UInt64.toNat_mod, hc.toNat_next hfits htail,
    Nat.dvd_iff_mod_eq_zero]
  rfl

theorem adjustedDifficulty_of_not_dvd (h : ¬ 10 ∣ c.blocks.length) :
    c.adjustedDifficulty = tail.difficulty := by
  rw [adjustedDifficulty, htail]
  exact if_pos ((next_mod_interval hc htail hfits).mpr h)

theorem adjustedDifficulty_of_dvd (h : 10 ∣ c.blocks.length) :
    ∃ opening, c.blocks[c.blocks.length - 10]? = some opening ∧
      c.adjustedDifficulty =
        retarget tail.difficulty (secondsBetween opening.timestamp tail.timestamp) := by
  have hpos : 0 < c.blocks.length := List.length_pos_iff.mpr hc.ne_nil
  have hlt : c.blocks.length - interval < c.blocks.length := Nat.sub_lt hpos (by decide)
  have hopening := List.getElem?_eq_getElem hlt
  have hlong : ¬ c.blocks.length < interval := not_lt.mpr (Nat.le_of_dvd hpos h)
  have hnow := mt (next_mod_interval hc htail hfits).mp (not_not.mpr h)
  refine ⟨_, hopening, ?_⟩
  simp only [adjustedDifficulty, htail, hopening, if_neg hnow, if_neg hlong]

end

/-- Behind the second block, every block has the difficulty of the one before it, unless its
position is a multiple of ten: then the time that the ten blocks before it took, in whole seconds,
adjusts that difficulty. -/
def Retargets (c : Chain) : Prop :=
  ∀ n b next, 1 ≤ n → c.blocks[n]? = some b → c.blocks[n + 1]? = some next →
    (¬ 10 ∣ n + 1 → next.difficulty = b.difficulty) ∧
      (10 ∣ n + 1 → ∃ opening, c.blocks[n - 9]? = some opening ∧
        next.difficulty.toNat = adjusted b.difficulty.toNat
          ((b.timestamp.toNat - opening.timestamp.toNat) / 1000))

/-- The difficulty changes by one at most at every multiple of ten. -/
theorem Retargets.drift {c : Chain} (h : c.Retargets) {first b : Block}
    (hfirst : c.blocks[1]? = some first) {n : ℕ} (hpos : 1 ≤ n) (hb : c.blocks[n]? = some b) :
    b.difficulty.toNat ≤ first.difficulty.toNat + n / 10 ∧
      first.difficulty.toNat ≤ b.difficulty.toNat + n / 10 := by
  induction n, hpos using Nat.le_induction generalizing b with
  | base =>
      obtain rfl := Option.some.inj (hfirst.symm.trans hb)
      omega
  | succ n hn ih =>
      have hlt : n < c.blocks.length :=
        Nat.lt_of_succ_lt (List.getElem?_eq_some_iff.mp hb).1
      have hprevious := List.getElem?_eq_getElem hlt
      obtain ⟨hup, hdown⟩ := ih hprevious
      obtain ⟨hkept, hadjusted⟩ := h n _ b hn hprevious hb
      by_cases hten : 10 ∣ n + 1
      · obtain ⟨opening, -, hnext⟩ := hadjusted hten
        have habove := adjusted_le (c.blocks[n].difficulty.toNat)
          ((c.blocks[n].timestamp.toNat - opening.timestamp.toNat) / 1000)
        have hbelow := le_adjusted c.blocks[n].difficulty.toNat_lt
          ((c.blocks[n].timestamp.toNat - opening.timestamp.toNat) / 1000)
        rw [← hnext] at habove hbelow
        omega
      · rw [hkept hten]
        omega

/-- A chain goes on to retarget with a block of the next difficulty. -/
theorem Retargets.append {c : Chain} (h : c.Retargets) (hc : c.InPlace) (hfits : c.Fits)
    {b : Block} {initial : UInt32} (hb : b.difficulty = c.nextDifficulty initial) :
    Retargets { c with blocks := c.blocks ++ [b] } := by
  intro n last next hpos hlast hnext
  have hinside : n < c.blocks.length := by
    have hlt := (List.getElem?_eq_some_iff.mp hnext).1
    rw [List.length_append, List.length_singleton] at hlt
    omega
  rw [List.getElem?_append_left hinside] at hlast
  rw [List.getElem?_append_left (Nat.lt_of_le_of_lt (Nat.sub_le n 9) hinside)]
  by_cases hold : n + 1 < c.blocks.length
  · rw [List.getElem?_append_left hold] at hnext
    exact h n last next hpos hlast hnext
  · -- The new block is the next one, and its difficulty was chosen on the last one.
    have hlength : c.blocks.length = n + 1 := by omega
    have htail : c.tail? = some last := by
      rw [tail?, List.getLast?_eq_getElem?, hlength]
      exact hlast
    have hnew : next = b := by
      rw [← hlength, List.getElem?_concat_length] at hnext
      exact (Option.some.inj hnext).symm
    have hdifficulty : next.difficulty = c.adjustedDifficulty := by
      rw [hnew, hb, nextDifficulty_eq hc htail, if_pos (by omega)]
    constructor
    · intro hten
      rw [hdifficulty]
      exact adjustedDifficulty_of_not_dvd hc htail hfits (hlength ▸ hten)
    · intro hten
      obtain ⟨opening, hopening, hretarget⟩ :=
        adjustedDifficulty_of_dvd hc htail hfits (hlength ▸ hten)
      have hwindow : c.blocks.length - 10 = n - 9 := by omega
      refine ⟨opening, hwindow ▸ hopening, ?_⟩
      rw [hdifficulty, hretarget, toNat_retarget]
      rfl

/-- Times that leave half of what an interval should take, or more, to every interval. -/
def OnTime (times : List UInt64) : Prop :=
  ∀ n opening last, times[n]? = some opening → times[n + 9]? = some last →
    30 ≤ secondsBetween opening last

theorem OnTime.of_isPrefix {times more : List UInt64} (h : OnTime more) (hp : times <+: more) :
    OnTime times := by
  obtain ⟨rest, rfl⟩ := hp
  intro n opening last hopening hlast
  apply h n opening last
  · rw [List.getElem?_append_left (List.getElem?_eq_some_iff.mp hopening).1]
    exact hopening
  · rw [List.getElem?_append_left (List.getElem?_eq_some_iff.mp hlast).1]
    exact hlast

/-- No work becomes necessary on a chain without work whose times are not too close. -/
theorem adjustedDifficulty_eq_zero {c : Chain} (hc : c.InPlace) (hfits : c.Fits)
    (hzero : ∀ b ∈ c.blocks, b.difficulty = 0) (htimes : OnTime (c.blocks.map Block.timestamp)) :
    c.adjustedDifficulty = 0 := by
  have hpos : 0 < c.blocks.length := List.length_pos_iff.mpr hc.ne_nil
  have htail := List.getLast?_eq_some_getLast hc.ne_nil
  have htailzero := hzero _ (List.getLast_mem hc.ne_nil)
  by_cases hten : 10 ∣ c.blocks.length
  · obtain ⟨opening, hopening, hretarget⟩ := adjustedDifficulty_of_dvd hc htail hfits hten
    have hwindow : c.blocks.length - 10 + 9 = c.blocks.length - 1 := by omega
    have hseconds := htimes (c.blocks.length - 10) opening.timestamp
      (c.blocks.getLast hc.ne_nil).timestamp
    rw [List.getElem?_map, List.getElem?_map, hopening, hwindow, ← List.getLast?_eq_getElem?,
      htail] at hseconds
    rw [hretarget, ← UInt32.toNat_inj, toNat_retarget, htailzero]
    exact adjusted_zero (hseconds rfl rfl)
  · rw [adjustedDifficulty_of_not_dvd hc htail hfits hten]
    exact htailzero

end WorkLedger.Chain
