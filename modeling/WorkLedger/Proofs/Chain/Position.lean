import WorkLedger.Proofs.Chain.Sound

/-!
# Blocks by position

In a chain whose blocks stand in place, the blocks below an index are the ones
before that position, and the index after the last one is the number of blocks.
-/

namespace WorkLedger

theorem takeWhile_eq_take {α : Type*} {p : α → Bool} {l : List α} {n : ℕ}
    (hbefore : ∀ i b, i < n → l[i]? = some b → p b = true)
    (hat : ∀ b, l[n]? = some b → p b = false) : l.takeWhile p = l.take n := by
  induction l generalizing n with
  | nil => simp
  | cons a l ih =>
      cases n with
      | zero =>
          have ha : p a = false := hat a rfl
          simp [ha]
      | succ n =>
          have ha : p a = true := hbefore 0 a (Nat.succ_pos n) rfl
          have hrest := ih (n := n) (fun i b hi hb => hbefore (i + 1) b (by omega) hb)
            (fun b hb => hat b hb)
          simp [ha, hrest]

theorem dropWhile_eq_drop {α : Type*} {p : α → Bool} {l : List α} {n : ℕ}
    (hbefore : ∀ i b, i < n → l[i]? = some b → p b = true)
    (hat : ∀ b, l[n]? = some b → p b = false) : l.dropWhile p = l.drop n := by
  have hwhole : l.takeWhile p ++ l.dropWhile p = l.take n ++ l.drop n := by
    rw [List.takeWhile_append_dropWhile, List.take_append_drop]
  rw [takeWhile_eq_take hbefore hat] at hwhole
  exact List.append_cancel_left hwhole

theorem Chain.getLast?_drop {c : Chain} {tail : Block} (htail : c.tail? = some tail)
    {i : ℕ} (hlt : i < c.blocks.length) : (c.blocks.drop i).getLast? = some tail := by
  rw [List.getLast?_drop, if_neg (not_le.mpr hlt)]
  exact htail

namespace Chain.InPlace

variable {c : Chain}

theorem get?_eq (h : c.InPlace) (index : UInt64) :
    c.get? index = c.blocks[index.toNat]? := h.sound.get?_eq index

theorem takeWhile_index (h : c.InPlace) (start : UInt64) :
    (c.blocks.takeWhile fun b => b.index < start) = c.blocks.take start.toNat := by
  apply takeWhile_eq_take
  · intro i b hi hb
    rw [decide_eq_true_eq, UInt64.lt_iff_toNat_lt, h.index i b hb]
    exact hi
  · intro b hb
    rw [decide_eq_false_iff_not, UInt64.lt_iff_toNat_lt, h.index _ b hb]
    exact lt_irrefl _

theorem toNat_index_tail (h : c.InPlace) {tail : Block} (htail : c.tail? = some tail) :
    tail.index.toNat + 1 = c.blocks.length := by
  have hpos : 0 < c.blocks.length := List.length_pos_iff.mpr h.ne_nil
  rw [tail?, List.getLast?_eq_getElem?] at htail
  rw [h.index _ tail htail]
  omega

/-- The index after the last one is the number of blocks. -/
theorem toNat_next (h : c.InPlace) (hfits : c.Fits) {tail : Block} (htail : c.tail? = some tail) :
    (tail.index + 1).toNat = c.blocks.length := by
  have hlength := h.toNat_index_tail htail
  rw [toNat_succ (hlength ▸ hfits), hlength]

theorem index_le_tail (h : c.InPlace) {tail b : Block} (htail : c.tail? = some tail)
    (hb : b ∈ c.blocks) : b.index ≤ tail.index := by
  obtain ⟨i, hi⟩ := List.getElem?_of_mem hb
  have hlt : i < c.blocks.length := (List.getElem?_eq_some_iff.mp hi).1
  rw [← h.toNat_index_tail htail] at hlt
  rw [UInt64.le_iff_toNat_le, h.index i b hi]
  omega

theorem pairwise_index (h : c.InPlace) : c.blocks.Pairwise fun x y => x.index < y.index := by
  rw [List.pairwise_iff_getElem]
  intro i j hi hj hij
  rw [UInt64.lt_iff_toNat_lt, h.index i _ (List.getElem?_eq_getElem hi),
    h.index j _ (List.getElem?_eq_getElem hj)]
  exact hij

end Chain.InPlace

end WorkLedger
