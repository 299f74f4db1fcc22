import Mathlib.Algebra.Order.BigOperators.Group.List
import Mathlib.Tactic.Linarith
import WorkLedger.Proofs.Account.Resolved
import WorkLedger.Proofs.Unspent.Supply

/-!
# Balances and unspent outputs

The balance of an address and the sum of its unspent outputs are found in
different ways: the one adds up what each transaction pays to the address, less
what it takes from it, and the other one keeps track of every single output. In a
chain whose payments each spend unspent outputs of one address both are the same.
One transaction changes the balance by what it puts into the unspent outputs of
the address, less what it takes out of them.
-/

namespace WorkLedger

theorem worth_le_of_sublist {us vs : List UnspentOutput} (h : us.Sublist vs)
    (hunits : ∀ u ∈ vs, Amount.IsUnits u.amount) : worth us ≤ worth vs := by
  apply (h.map _).sum_le_sum
  intro x hx
  obtain ⟨u, hu, rfl⟩ := List.mem_map.mp hx
  exact (hunits u hu).exact_nonneg

theorem worth_flatMap_created (ps : List Placed) :
    worth (ps.flatMap Placed.created) = ((ps.map Placed.tx).map Transaction.worth).sum := by
  induction ps with
  | nil => rfl
  | cons p ps ih =>
      rw [List.flatMap_cons, worth_append, ih, Placed.worth_created, List.map_cons, List.map_cons,
        List.sum_cons]

theorem UnspentOutput.paysTo_eq {address : String} (hne : address ≠ "") (u : UnspentOutput) :
    u.paysTo address = (u.address == address) := by
  rw [Bool.eq_iff_iff, paysTo_iff]
  simp [hne]

/-- Of outputs of one address, either all or none pay to an address. -/
theorem UnspentOutput.filter_paysTo_eq {address owner : String} (hne : address ≠ "")
    {us : List UnspentOutput} (howner : ∀ u ∈ us, u.address = owner) :
    (us.filter fun u => u.paysTo address) =
      if us.head?.map UnspentOutput.address = some address then us else [] := by
  have hpays : ∀ u ∈ us, u.paysTo address = decide (owner = address) := by
    intro u hu
    rw [paysTo_eq hne, howner u hu]
    rfl
  rw [List.filter_congr hpays]
  cases us with
  | nil => simp
  | cons u rest =>
      have hu := howner u List.mem_cons_self
      by_cases h : owner = address <;> simp [h, hu]

namespace Placed

theorem amounts_createdFor {address : String} (hne : address ≠ "") (p : Placed) :
    (p.createdFor address).map UnspentOutput.amount =
      (p.tx.outs.filter fun o => o.address == address).map TxOut.amount := by
  rw [createdFor, created, List.filter_map, List.map_map]
  conv_rhs => rw [← List.zipIdx_map_fst 0 p.tx.outs, List.filter_map, List.map_map]
  simp only [Function.comp_def, UnspentOutput.paysTo_eq hne]

/-- What a transaction pays to an address, if it has an output for it, is what it
creates for the address. -/
theorem credit?_cases {address : String} (hne : address ≠ "") {p : Placed}
    (hunits : ∀ o ∈ p.tx.outs, Amount.IsUnits o.amount) {k : ℕ}
    (hk : worth (p.createdFor address) = k) (hlt : k < 2 ^ 53) :
    (p.tx.credit? address = none ∧ k = 0) ∨
      ∃ x, p.tx.credit? address = some x ∧ Amount.Holds x k := by
  have hxs : ∀ x ∈ (p.tx.outs.filter fun o => o.address == address).map TxOut.amount,
      Amount.IsUnits x := by
    intro x hx
    obtain ⟨o, ho, rfl⟩ := List.mem_map.mp hx
    exact hunits o (List.mem_of_mem_filter ho)
  have hsum : ((p.createdFor address).map UnspentOutput.amount |>.map Amount.exact).sum = k := by
    rw [List.map_map]
    exact hk
  rw [amounts_createdFor hne] at hsum
  rw [Transaction.credit?]
  cases hcredit : (p.tx.outs.filter fun o => o.address == address).map TxOut.amount with
  | nil =>
      rw [hcredit] at hsum
      exact Or.inl ⟨rfl, Nat.cast_eq_zero.mp hsum.symm⟩
  | cons x rest =>
      rw [hcredit] at hxs hsum
      obtain ⟨⟨m, hm⟩, hrest⟩ := List.forall_mem_cons.mp hxs
      rw [List.map_cons, List.sum_cons, hm.2] at hsum
      exact Or.inr ⟨_, rfl, Amount.holds_foldl hrest hm hsum hlt⟩

end Placed

namespace Chain

/-- In an orderly chain every block stands at the position of its index, every
input points at an output, each payment spends distinct outputs of one address
that are unspent before it, and the amounts are whole numbers of units whose sum a
float can hold. -/
structure Orderly (c : Chain) : Prop where
  isValid : c.isValid = true
  indexed : c.Indexed
  addressable : c.Addressable
  resolves : c.Resolves
  payments : ∀ p ∈ c.placed, p.tx.isCoinbase = false →
    ∃ us, Placed.Sources (c.before p) p us ∧ ∃ owner, ∀ u ∈ us, u.address = owner
  units : ∀ p ∈ c.placed, ∀ o ∈ p.tx.outs, Amount.IsUnits o.amount
  total : ((c.blocks.flatMap Block.transactions).map Transaction.worth).sum < 2 ^ 53

namespace Orderly

variable {c : Chain} (h : c.Orderly)

include h

theorem distinctPoints : Placed.DistinctPoints c.placed :=
  nodup_points h.isValid h.addressable

theorem isUnits {u : UnspentOutput} (hu : u ∈ c.placed.flatMap Placed.created) :
    Amount.IsUnits u.amount := by
  obtain ⟨p, hp, hcreated⟩ := List.mem_flatMap.mp hu
  obtain ⟨n, o, ho, rfl⟩ := (Placed.mem_created_iff p u).mp hcreated
  exact h.units p hp o (List.mem_of_getElem? ho)

theorem output?_eq {u : UnspentOutput} (hu : u ∈ c.placed.flatMap Placed.created) :
    c.output? u.point = some ⟨u.address, u.amount⟩ := by
  obtain ⟨p, hp, hcreated⟩ := List.mem_flatMap.mp hu
  exact output?_eq_of_creates h.indexed h.addressable hp ((Placed.mem_created_iff p u).mp hcreated)

/-- Different outputs of an orderly chain are worth a number that a float can hold,
and their amounts are added without rounding. -/
theorem exists_worth {us : List UnspentOutput} (hnodup : us.Nodup)
    (hsubset : us ⊆ c.placed.flatMap Placed.created) :
    ∃ t : ℕ, worth us = t ∧ t < 2 ^ 53 ∧
      Amount.Holds (Amount.sum (us.map UnspentOutput.amount)) t := by
  have hunits : ∀ x ∈ us.map UnspentOutput.amount, Amount.IsUnits x := by
    intro x hx
    obtain ⟨u, hu, rfl⟩ := List.mem_map.mp hx
    exact h.isUnits (hsubset hu)
  obtain ⟨t, ht⟩ := Amount.exists_sum_exact hunits
  have hworth : worth us = t := by
    rw [List.map_map] at ht
    exact ht
  obtain ⟨vs, hperm, hsublist⟩ := List.subperm_of_subset hnodup hsubset
  have hle := worth_le_of_sublist hsublist fun u hu => h.isUnits hu
  rw [worth_perm hperm, hworth, worth_flatMap_created, map_tx_placed] at hle
  have hlt : t < 2 ^ 53 := by exact_mod_cast lt_of_le_of_lt hle h.total
  exact ⟨t, hworth, hlt, Amount.holds_sum hunits ht hlt⟩

theorem exists_worth_replay {ps : List Placed} (hps : ps <+: c.placed) (address : String) :
    ∃ t : ℕ, worth (Placed.replay address ps) = t ∧ t < 2 ^ 53 ∧
      Amount.Holds (Amount.sum ((Placed.replay address ps).map UnspentOutput.amount)) t :=
  h.exists_worth (Placed.sorted_replay address ps).nodup_points.of_map fun _ hu =>
    (hps.sublist.flatMap Placed.created).subset (Placed.mem_flatMap_of_mem_replay hu)

section

variable {ps : List Placed} {p : Placed} (hps : ps ++ [p] <+: c.placed)

include hps

theorem exists_worth_createdFor (address : String) :
    ∃ k : ℕ, worth (p.createdFor address) = k ∧ k < 2 ^ 53 := by
  have hnodup : (Placed.replay address ps ++ p.createdFor address).Nodup :=
    (h.distinctPoints.sublist hps.sublist).replay_append.of_map
  have hp := mem_placed_of_append hps
  obtain ⟨k, hk, hlt, _⟩ := h.exists_worth (List.nodup_append'.mp hnodup).2.1
    fun u hu => List.mem_flatMap.mpr ⟨p, hp, List.mem_of_mem_filter hu⟩
  exact ⟨k, hk, hlt⟩

theorem exists_sources : ∃ us, Placed.Sources ps p us ∧ us ⊆ c.placed.flatMap Placed.created ∧
    ∃ owner, ∀ u ∈ us, u.address = owner := by
  have hp := mem_placed_of_append hps
  have hbefore := ((List.prefix_append ps [p]).trans hps).sublist.flatMap Placed.created
  cases hcoinbase : p.tx.isCoinbase with
  | true =>
      have hsources := Placed.sources_of_isCoinbase ps hcoinbase
      exact ⟨[], hsources, List.nil_subset _, "", fun _ hu => absurd hu List.not_mem_nil⟩
  | false =>
      obtain ⟨us, hsources, howner⟩ := h.payments p hp hcoinbase
      rw [before_eq hps] at hsources
      exact ⟨us, hsources, fun u hu => hbefore.subset (hsources.live u hu).mem_flatMap, howner⟩

/-- A transaction changes the account of an address by as much as it changes the
unspent outputs of the address. -/
theorem change?_cases {address : String} (hne : address ≠ "") :
    ((c.resolved p.tx).change? address = none ∧
      worth (Placed.replay address (ps ++ [p])) = worth (Placed.replay address ps)) ∨
    ∃ (x : Float) (n : ℤ), (c.resolved p.tx).change? address = some x ∧ Amount.Holds x n ∧
      n.natAbs < 2 ^ 53 ∧
      worth (Placed.replay address (ps ++ [p])) = worth (Placed.replay address ps) + n := by
  have hp := mem_placed_of_append hps
  obtain ⟨us, hsources, hsubset, owner, howner⟩ := h.exists_sources hps
  obtain ⟨d, hd, hdlt, hinputs⟩ := h.exists_worth hsources.nodup.of_map hsubset
  obtain ⟨k, hk, hklt⟩ := h.exists_worth_createdFor hps address
  have hcredit := Placed.credit?_cases hne (h.units p hp) hk hklt
  have houtput := fun u (hu : u ∈ us) => h.output?_eq (hsubset hu)
  have hspent := isSpentBy_resolved_iff houtput hsources.points address
  have hworth := hsources.worth_replay (h.distinctPoints.sublist hps.sublist)
    (c.pairwise_placed.sublist hps.sublist) address
  rw [UnspentOutput.filter_paysTo_eq hne howner, hk] at hworth
  rw [Transaction.change?, credit?_resolved]
  -- The owner of the first source owns all of them: the address spends all or none.
  by_cases hhead : us.head?.map UnspentOutput.address = some address
  · rw [if_pos hhead, hd] at hworth
    rw [if_pos (hspent.mpr hhead), inputTotal_resolved houtput hsources.points (hspent.mpr hhead)]
    have hpaid : Amount.Holds ((p.tx.credit? address).getD 0) k := by
      rcases hcredit with ⟨hnone, rfl⟩ | ⟨x, hsome, hx⟩
      · rw [hnone]
        exact Amount.holds_zero
      · rw [hsome]
        exact hx
    have hdebit := (hinputs.sub hpaid (by omega) (by omega) (by omega)).neg (by omega)
    refine Or.inr ⟨_, _, rfl, hdebit, by omega, ?_⟩
    push_cast
    linarith only [hworth]
  · have hnothing : worth [] = 0 := rfl
    rw [if_neg hhead, hnothing, add_zero] at hworth
    rw [if_neg (mt hspent.mp hhead)]
    rcases hcredit with ⟨hnone, rfl⟩ | ⟨x, hsome, hx⟩
    · exact Or.inl ⟨hnone, by rw [hworth, Nat.cast_zero, add_zero]⟩
    · exact Or.inr ⟨x, k, hsome, hx, by omega, by rw [hworth, Int.cast_natCast]⟩

end

/-- After each transaction of an orderly chain the account of an address adds up
to what its unspent outputs are worth. -/
theorem holds_changes {address : String} (hne : address ≠ "") {ps : List Placed}
    (hps : ps <+: c.placed) {t : ℕ} (ht : worth (Placed.replay address ps) = t) :
    Amount.Holds (Amount.sum (ps.filterMap fun p => (c.resolved p.tx).change? address)) t := by
  induction ps using List.reverseRecOn generalizing t with
  | nil =>
      obtain rfl : 0 = t := Nat.cast_injective (Nat.cast_zero.trans ht)
      exact Amount.holds_neg_zero
  | append_singleton ps p ih =>
      have hbefore := (List.prefix_append ps [p]).trans hps
      obtain ⟨r, hr, hrlt, _⟩ := h.exists_worth_replay hbefore address
      -- What is unspent afterwards is worth less than the bound, so no sum on the way rounds.
      obtain ⟨s, hs, hslt, _⟩ := h.exists_worth_replay hps address
      obtain rfl : s = t := Nat.cast_injective (hs.symm.trans ht)
      have hsum := ih hbefore hr
      rw [List.filterMap_append]
      rcases h.change?_cases hps hne with ⟨hnone, hworth⟩ | ⟨x, n, hsome, hx, hn, hworth⟩
      · rw [hs, hr] at hworth
        obtain rfl : s = r := Nat.cast_injective hworth
        simpa [hnone] using hsum
      · rw [hs, hr] at hworth
        have hnext : (s : ℤ) = r + n := by exact_mod_cast hworth
        have hchanged := hsum.add hx (by omega) hn (by omega)
        rw [← hnext] at hchanged
        simpa [hsome, Amount.sum_append_singleton] using hchanged

/-- In an orderly chain the balance of an address is the sum of its unspent
outputs, and neither is rounded. -/
theorem balance_eq_sum_unspent {address : String} (hne : address ≠ "") :
    ∃ x, c.balance address = .ok x ∧
      (x == Amount.sum ((c.unspent address).map UnspentOutput.amount)) = true ∧
      Amount.exact x = worth (c.unspent address) := by
  obtain ⟨t, ht, htlt, hunspent⟩ := h.exists_worth_replay List.prefix_rfl address
  have hbalance := h.holds_changes hne List.prefix_rfl ht
  rw [unspent_eq_replay, balance_eq_ok h.indexed h.resolves, ← map_tx_placed, List.filterMap_map]
  exact ⟨_, rfl, hbalance.beq hunspent (by omega), hbalance.2.trans (by rw [ht, Int.cast_natCast])⟩

end Orderly

theorem orderly_circulating : circulating.Orderly where
  isValid := isValid_holding _
  indexed := indexed_holding addressable_circulating.blocks
  addressable := addressable_circulating
  resolves := by
    unfold Resolves
    decide
  payments := by
    intro p hp hcoinbase
    obtain ⟨us, hsources, _, howner⟩ := payments_circulating p hp hcoinbase
    exact ⟨us, hsources, howner⟩
  units := by
    have hunits : ∀ x ∈ [57, 57, 20, 37, 57, 77], Amount.IsUnits x := by
      simp only [List.forall_mem_cons]
      exact ⟨⟨57, holds_57⟩, ⟨57, holds_57⟩, ⟨20, holds_20⟩, ⟨37, holds_37⟩, ⟨57, holds_57⟩,
        ⟨77, holds_77⟩, fun _ hx => absurd hx List.not_mem_nil⟩
    have hamounts : (circulating.placed.flatMap fun p => p.tx.outs).map TxOut.amount =
        [57, 57, 20, 37, 57, 77] := rfl
    intro p hp o ho
    apply hunits
    rw [← hamounts]
    exact List.mem_map_of_mem (List.mem_flatMap.mpr ⟨p, hp, ho⟩)
  total := by
    change ((_ :: _ :: _ :: _ :: _ :: []).map Transaction.worth).sum < 2 ^ 53
    norm_num [Transaction.worth, Transaction.coinbase, Transaction.reward, holds_57.2,
      holds_20.2, holds_37.2, holds_77.2]

theorem balance_eq_sum_unspent_circulating :
    circulating.Orderly ∧ "a" ≠ "" ∧ ∃ x, circulating.balance "a" = .ok x ∧
      (x == Amount.sum ((circulating.unspent "a").map UnspentOutput.amount)) = true ∧
      Amount.exact x = worth (circulating.unspent "a") :=
  ⟨orderly_circulating, by decide,
    Orderly.balance_eq_sum_unspent orderly_circulating (by decide)⟩

end Chain

end WorkLedger
