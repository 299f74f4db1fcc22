import Mathlib.Data.List.Nodup
import Mathlib.Data.Prod.Lex
import WorkLedger.Chain.Unspent

/-!
# Lists of unspent outputs by position

Points are compared by their three numbers, so their order is the lexicographic
one. Inserting keeps a list in strict order whatever is inserted; at a new point
it adds the output and changes nothing else. Erasing points one after the other
leaves the outputs at all other points.
-/

namespace WorkLedger

namespace OutPoint

/-- The three numbers of a point, to be compared lexicographically. -/
def key (p : OutPoint) : ℕ ×ₗ ℕ ×ₗ ℕ :=
  toLex (p.block.toNat, toLex (p.tx.toNat, p.out.toNat))

theorem key_injective : Function.Injective key := by
  intro p q h
  simp only [key, EmbeddingLike.apply_eq_iff_eq, Prod.mk.injEq, UInt64.toNat_inj] at h
  cases p
  cases q
  rw [OutPoint.mk.injEq]
  exact h

theorem key_lt_iff (p q : OutPoint) :
    p.key < q.key ↔ p.block < q.block ∨ p.block = q.block ∧
      (p.tx < q.tx ∨ p.tx = q.tx ∧ p.out < q.out) := by
  simp only [key, Prod.Lex.toLex_lt_toLex, UInt64.lt_iff_toNat_lt, UInt64.toNat_inj]

theorem compare_eq_lt_iff (p q : OutPoint) : Ord.compare p q = .lt ↔ p.key < q.key := by
  change p.compare q = .lt ↔ _
  rw [OutPoint.compare, key_lt_iff, Ordering.then_eq_lt, Ordering.then_eq_lt,
    Ordering.then_eq_eq]
  simp only [Std.compare_eq_lt, Std.compare_eq_iff_eq]
  tauto

theorem compare_eq_eq_iff (p q : OutPoint) : Ord.compare p q = .eq ↔ p = q := by
  change p.compare q = .eq ↔ _
  cases p
  cases q
  simp only [OutPoint.compare, Ordering.then_eq_eq, Std.compare_eq_iff_eq, mk.injEq, and_assoc]

/-- Of two points that are neither equal nor in order, the second one comes first. -/
theorem key_lt_of_compare_eq_gt {p q : OutPoint} (h : Ord.compare p q = .gt) :
    q.key < p.key := by
  rcases lt_trichotomy p.key q.key with hlt | heq | hgt
  · rw [(compare_eq_lt_iff p q).mpr hlt] at h
    cases h
  · rw [(compare_eq_eq_iff p q).mpr (key_injective heq)] at h
    cases h
  · exact hgt

end OutPoint

namespace UnspentOutput

/-- Outputs in the strict order of their points. -/
def Sorted (us : List UnspentOutput) : Prop :=
  us.Pairwise fun u v => u.point.key < v.point.key

theorem Sorted.nodup_points {us : List UnspentOutput} (h : Sorted us) :
    (us.map point).Nodup := by
  rw [List.nodup_iff_pairwise_ne, List.pairwise_map]
  refine List.Pairwise.imp ?_ h
  intro u v hlt heq
  rw [heq] at hlt
  exact lt_irrefl _ hlt

theorem mem_of_mem_insert {u v : UnspentOutput} {us : List UnspentOutput}
    (h : v ∈ u.insert us) : v = u ∨ v ∈ us := by
  induction us with
  | nil => exact Or.inl (List.mem_singleton.mp h)
  | cons w us ih =>
      rw [insert] at h
      split at h
      · exact List.mem_cons.mp h
      · rcases List.mem_cons.mp h with hu | hrest
        · exact Or.inl hu
        · exact Or.inr (List.mem_cons_of_mem w hrest)
      · rcases List.mem_cons.mp h with rfl | hrest
        · exact Or.inr List.mem_cons_self
        · exact (ih hrest).imp_right (List.mem_cons_of_mem w)

/-- Inserting keeps the order. -/
theorem Sorted.insert {us : List UnspentOutput} (h : Sorted us) (u : UnspentOutput) :
    Sorted (u.insert us) := by
  induction us with
  | nil => exact List.pairwise_singleton _ _
  | cons w us ih =>
      obtain ⟨hfirst, hrest⟩ := List.pairwise_cons.mp h
      rw [UnspentOutput.insert]
      split
      · next hlt =>
          rw [OutPoint.compare_eq_lt_iff] at hlt
          refine List.pairwise_cons.mpr ⟨?_, h⟩
          intro v hv
          rcases List.mem_cons.mp hv with rfl | hv
          · exact hlt
          · exact lt_trans hlt (hfirst v hv)
      · next heq =>
          rw [OutPoint.compare_eq_eq_iff] at heq
          exact List.pairwise_cons.mpr ⟨by rwa [heq], hrest⟩
      · next hgt =>
          refine List.pairwise_cons.mpr ⟨?_, ih hrest⟩
          intro v hv
          rcases mem_of_mem_insert hv with rfl | hv
          · exact OutPoint.key_lt_of_compare_eq_gt hgt
          · exact hfirst v hv

theorem mem_of_mem_foldl_insert {v : UnspentOutput} {us vs : List UnspentOutput}
    (h : v ∈ vs.foldl (fun us u => u.insert us) us) : v ∈ us ∨ v ∈ vs := by
  induction vs generalizing us with
  | nil => exact Or.inl h
  | cons u vs ih =>
      rcases ih h with hinsert | hrest
      · rcases mem_of_mem_insert hinsert with rfl | hold
        · exact Or.inr List.mem_cons_self
        · exact Or.inl hold
      · exact Or.inr (List.mem_cons_of_mem u hrest)

theorem Sorted.foldl_insert {us : List UnspentOutput} (h : Sorted us)
    (vs : List UnspentOutput) : Sorted (vs.foldl (fun us u => u.insert us) us) := by
  induction vs generalizing us with
  | nil => exact h
  | cons u vs ih => exact ih (h.insert u)

/-- Inserting at a new point adds the output. -/
theorem insert_perm {u : UnspentOutput} {us : List UnspentOutput}
    (hnew : u.point ∉ us.map point) : (u.insert us).Perm (u :: us) := by
  induction us with
  | nil => exact List.Perm.refl _
  | cons w us ih =>
      rw [List.map_cons, List.mem_cons, not_or] at hnew
      rw [insert]
      split
      · exact List.Perm.refl _
      · next heq => exact absurd ((OutPoint.compare_eq_eq_iff _ _).mp heq) hnew.1
      · exact ((ih hnew.2).cons w).trans (List.Perm.swap u w us)

/-- Inserting outputs at new points adds them. -/
theorem foldl_insert_perm {us vs : List UnspentOutput}
    (hnodup : ((us ++ vs).map point).Nodup) :
    (vs.foldl (fun us u => u.insert us) us).Perm (us ++ vs) := by
  induction vs generalizing us with
  | nil => simp
  | cons v vs ih =>
      have hmiddle : (us ++ v :: vs).Perm (v :: us ++ vs) := List.perm_middle
      have hnodup' := (hmiddle.map point).nodup_iff.mp hnodup
      have hnew : v.point ∉ us.map point := by
        intro hmem
        apply (List.nodup_cons.mp hnodup').1
        exact List.map_subset point (List.subset_append_left us vs) hmem
      have hinsert := insert_perm hnew
      have hrest := ih (((hinsert.append_right vs).map point).nodup_iff.mpr hnodup')
      exact (hrest.trans (hinsert.append_right vs)).trans hmiddle.symm

theorem insert_eq_append {u : UnspentOutput} {us : List UnspentOutput}
    (h : ∀ v ∈ us, v.point.key < u.point.key) : u.insert us = us ++ [u] := by
  induction us with
  | nil => rfl
  | cons w us ih =>
      obtain ⟨hw, hrest⟩ := List.forall_mem_cons.mp h
      rw [insert]
      split
      · next hlt => exact absurd ((OutPoint.compare_eq_lt_iff _ _).mp hlt) (lt_asymm hw)
      · next heq =>
          rw [(OutPoint.compare_eq_eq_iff _ _).mp heq] at hw
          exact absurd hw (lt_irrefl _)
      · rw [ih hrest, List.cons_append]

/-- Outputs that come behind all others are put at the end. -/
theorem foldl_insert_eq_append {us vs : List UnspentOutput} (h : Sorted (us ++ vs)) :
    vs.foldl (fun us u => u.insert us) us = us ++ vs := by
  induction vs generalizing us with
  | nil => rw [List.append_nil, List.foldl_nil]
  | cons v vs ih =>
      have hbefore := (List.pairwise_append.mp h).2.2
      have hmiddle : us ++ v :: vs = us ++ [v] ++ vs := List.append_cons us v vs
      rw [hmiddle] at h ⊢
      rw [List.foldl_cons, insert_eq_append fun w hw => hbefore w hw v List.mem_cons_self]
      exact ih h

/-- Erasing points one after the other leaves the outputs at all other points. -/
theorem foldl_erase (points : List OutPoint) (us : List UnspentOutput) :
    points.foldl (fun us p => erase p us) us = us.filter fun u => u.point ∉ points := by
  induction points generalizing us with
  | nil => simp
  | cons p points ih =>
      rw [List.foldl_cons, ih, erase, List.filter_filter]
      apply List.filter_congr
      intro u _
      by_cases hp : u.point = p <;> simp [hp]

end UnspentOutput

end WorkLedger
