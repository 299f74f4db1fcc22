import Mathlib.Algebra.BigOperators.Group.List.Basic
import WorkLedger.Proofs.Amount.Exact
import WorkLedger.Proofs.Unspent.Replay

/-!
# The supply

A transaction that spends distinct outputs, all of them unspent before it, takes
each of them out once and puts its own outputs in. What is unspent after it and
what it spends are therefore together what was unspent before it and what it
creates. If it pays out as much as it spends, the worth of the unspent outputs
stays as it is, and the only supply is what the coinbases pay out.
-/

namespace WorkLedger

/-- The exact sum of the amounts of some outputs. -/
def worth (us : List UnspentOutput) : ℚ := (us.map fun u => Amount.exact u.amount).sum

theorem worth_append (us vs : List UnspentOutput) : worth (us ++ vs) = worth us + worth vs := by
  rw [worth, List.map_append, List.sum_append]
  rfl

theorem worth_perm {us vs : List UnspentOutput} (h : us.Perm vs) : worth us = worth vs :=
  (h.map _).sum_eq

theorem UnspentOutput.filter_paysTo_empty (us : List UnspentOutput) :
    (us.filter fun u => u.paysTo "") = us := by
  apply List.filter_eq_self.mpr
  intro u _
  exact (paysTo_iff "" u).mpr (Or.inl rfl)

/-- The exact sum of what a transaction pays out. -/
def Transaction.worth (tx : Transaction) : ℚ :=
  (tx.outs.map fun o => Amount.exact o.amount).sum

/-- What the coinbases among some transactions pay out. -/
def minted (txs : List Transaction) : ℚ :=
  ((txs.filter Transaction.isCoinbase).map Transaction.worth).sum

theorem minted_append_singleton (txs : List Transaction) (tx : Transaction) :
    minted (txs ++ [tx]) = minted txs + if tx.isCoinbase then tx.worth else 0 := by
  rw [minted, List.filter_append, List.map_append, List.sum_append]
  cases h : tx.isCoinbase <;> simp [h, minted]

namespace Placed

theorem worth_created (p : Placed) : worth p.created = p.tx.worth := by
  rw [worth, Transaction.worth]
  change (p.created.map (Amount.exact ∘ UnspentOutput.amount)).sum =
    (p.tx.outs.map (Amount.exact ∘ TxOut.amount)).sum
  rw [← List.map_map, amounts_created, List.map_map]

theorem createdFor_empty (p : Placed) : p.createdFor "" = p.created :=
  UnspentOutput.filter_paysTo_empty p.created

/-- A transaction after some others spends certain outputs: they are at the points
that it spends, they are distinct, and they are live among the others. -/
structure Sources (ps : List Placed) (p : Placed) (us : List UnspentOutput) : Prop where
  points : us.map UnspentOutput.point = p.tx.spent
  nodup : (us.map UnspentOutput.point).Nodup
  live : ∀ u ∈ us, Live ps u

theorem sources_of_isCoinbase (ps : List Placed) {p : Placed} (h : p.tx.isCoinbase = true) :
    Sources ps p [] := by
  refine ⟨?_, List.nodup_nil, ?_⟩
  · rw [Transaction.spent, if_pos h]
    rfl
  · intro u hu
    cases hu

theorem DistinctPoints.eq_of_point {ps : List Placed} (h : DistinctPoints ps)
    {u v : UnspentOutput} (hu : u ∈ ps.flatMap created) (hv : v ∈ ps.flatMap created)
    (hpoint : u.point = v.point) : u = v :=
  List.inj_on_of_nodup_map h hu hv hpoint

theorem Live.mem_flatMap {ps : List Placed} {u : UnspentOutput} (h : Live ps u) :
    u ∈ ps.flatMap created := by
  obtain ⟨p, hp, hcreates, _⟩ := h
  exact List.mem_flatMap.mpr ⟨p, hp, (mem_created_iff p u).mpr hcreates⟩

section

variable {ps : List Placed} {p : Placed} {us : List UnspentOutput}
  (hdistinct : DistinctPoints (ps ++ [p]))
  (horder : (ps ++ [p]).Pairwise fun p q => p.place < q.place) (hsources : Sources ps p us)

include hdistinct horder hsources

/-- The outputs that a transaction takes out are those that it spends. -/
theorem Sources.perm_taken (address : String) :
    ((replay address ps ++ p.createdFor address).filter fun u => u.point ∈ p.tx.spent).Perm
      (us.filter fun u => u.paysTo address) := by
  have hbefore := hdistinct.sublist (List.sublist_append_left ps [p])
  have hmem := mem_replay_iff address hbefore (List.pairwise_append.mp horder).1
  have hnodup : (replay address ps ++ p.createdFor address).Nodup :=
    hdistinct.replay_append.of_map
  rw [List.perm_ext_iff_of_nodup (hnodup.filter _) (hsources.nodup.of_map.filter _)]
  intro u
  simp only [List.mem_filter, List.mem_append, createdFor, decide_eq_true_eq, hmem]
  constructor
  · rintro ⟨hu, hspent⟩
    rw [← hsources.points] at hspent
    obtain ⟨v, hv, hpoint⟩ := List.mem_map.mp hspent
    -- A source stands at the point of the output, so it is that output.
    have hcreated : u ∈ (ps ++ [p]).flatMap created := by
      rw [List.flatMap_append, List.flatMap_singleton, List.mem_append]
      exact hu.imp (fun h => h.2.mem_flatMap) And.left
    have hvcreated : v ∈ (ps ++ [p]).flatMap created := by
      rw [List.flatMap_append]
      exact List.mem_append_left _ (hsources.live v hv).mem_flatMap
    obtain rfl := hdistinct.eq_of_point hvcreated hcreated hpoint
    exact ⟨hv, hu.elim And.left And.right⟩
  · rintro ⟨hu, hpays⟩
    refine ⟨Or.inl ⟨hpays, hsources.live u hu⟩, ?_⟩
    rw [← hsources.points]
    exact List.mem_map_of_mem hu

/-- What is unspent after a transaction and what it spends are together what was
unspent before it and what it creates. -/
theorem Sources.perm_replay (address : String) :
    (replay address (ps ++ [p]) ++ us.filter fun u => u.paysTo address).Perm
      (replay address ps ++ p.createdFor address) := by
  have hkept := replay_append_singleton_perm address hdistinct
  have htaken := hsources.perm_taken hdistinct horder address
  have hsplit := List.filter_append_perm (fun u => decide (u.point ∈ p.tx.spent))
    (replay address ps ++ p.createdFor address)
  simp only [← decide_not] at hsplit
  exact (hkept.append htaken.symm).trans (List.perm_append_comm.trans hsplit)

theorem Sources.worth_replay (address : String) :
    worth (replay address (ps ++ [p])) + worth (us.filter fun u => u.paysTo address) =
      worth (replay address ps) + worth (p.createdFor address) := by
  rw [← worth_append, ← worth_append]
  exact worth_perm (hsources.perm_replay hdistinct horder address)

end

end Placed

namespace Chain

/-- The transactions that stand before another one. -/
def before (c : Chain) (p : Placed) : List Placed := c.placed.filter fun q => q.place < p.place

theorem mem_placed_of_append {c : Chain} {ps : List Placed} {p : Placed}
    (h : ps ++ [p] <+: c.placed) : p ∈ c.placed :=
  h.subset (List.mem_append_right ps (List.mem_singleton_self p))

theorem before_eq {c : Chain} {ps : List Placed} {p : Placed} (h : ps ++ [p] <+: c.placed) :
    c.before p = ps := by
  obtain ⟨qs, hqs⟩ := h
  have horder := c.pairwise_placed
  rw [← hqs, List.append_assoc, List.pairwise_append] at horder
  obtain ⟨_, hrest, hlast⟩ := horder
  have hps : (ps.filter fun q => decide (q.place < p.place)) = ps := by
    apply List.filter_eq_self.mpr
    intro q hq
    exact decide_eq_true (hlast q hq p List.mem_cons_self)
  have hqs' : (([p] ++ qs).filter fun q => decide (q.place < p.place)) = [] := by
    apply List.filter_eq_nil_iff.mpr
    intro q hq
    rw [decide_eq_true_eq, not_lt]
    rcases List.mem_cons.mp hq with rfl | hlater
    · exact le_rfl
    · exact (List.rel_of_pairwise_cons hrest hlater).le
  rw [before, ← hqs, List.append_assoc, List.filter_append, hps, hqs', List.append_nil]

theorem map_tx_placed (c : Chain) :
    c.placed.map Placed.tx = c.blocks.flatMap Block.transactions := by
  have htxs : ∀ bi : Block × ℕ, (bi.1.transactions.zipIdx.map fun tn =>
      (⟨bi.2, bi.1, tn.2, tn.1⟩ : Placed)).map Placed.tx = bi.1.transactions := by
    intro bi
    rw [List.map_map]
    exact List.zipIdx_map_fst 0 bi.1.transactions
  rw [placed, List.map_flatMap]
  simp only [htxs]
  conv_rhs => rw [← List.zipIdx_map_fst 0 c.blocks, List.flatMap_map]

section

variable {c : Chain} (hbalanced : ∀ p ∈ c.placed, p.tx.isCoinbase = false →
  ∃ us, Placed.Sources (c.before p) p us ∧ worth us = p.tx.worth)

include hbalanced

/-- After each transaction of a chain the unspent outputs are worth what the
coinbases up to it pay out. -/
theorem worth_replay (hdistinct : Placed.DistinctPoints c.placed) {ps : List Placed}
    (hps : ps <+: c.placed) :
    worth (Placed.replay "" ps) = minted (ps.map Placed.tx) := by
  induction ps using List.reverseRecOn with
  | nil => rfl
  | append_singleton ps p ih =>
      have hbefore := ih ((List.prefix_append ps [p]).trans hps)
      have hdistinct' := hdistinct.sublist hps.sublist
      have horder := c.pairwise_placed.sublist hps.sublist
      rw [List.map_append, List.map_singleton, minted_append_singleton, ← hbefore]
      cases hcoinbase : p.tx.isCoinbase with
      | true =>
          have hworth := (Placed.sources_of_isCoinbase ps hcoinbase).worth_replay
            hdistinct' horder ""
          rw [Placed.createdFor_empty, Placed.worth_created] at hworth
          rw [if_pos rfl, ← hworth]
          exact (add_zero _).symm
      | false =>
          obtain ⟨us, hsources, hpaid⟩ := hbalanced p (mem_placed_of_append hps) hcoinbase
          rw [before_eq hps] at hsources
          have hworth := hsources.worth_replay hdistinct' horder ""
          rw [Placed.createdFor_empty, Placed.worth_created, ← hpaid,
            UnspentOutput.filter_paysTo_empty] at hworth
          rw [if_neg Bool.false_ne_true, add_zero]
          exact add_right_cancel hworth

/-- If every transaction that is no coinbase spends distinct outputs that are
unspent before it, and pays out as much as they are worth, then all unspent
outputs of the chain are worth what its coinbases pay out. -/
theorem worth_unspent (hvalid : c.isValid = true) (hsmall : c.Addressable) :
    worth (c.unspent "") = minted (c.blocks.flatMap Block.transactions) := by
  rw [unspent_eq_replay, ← map_tx_placed]
  exact worth_replay hbalanced (nodup_points hvalid hsmall) List.prefix_rfl

end

theorem live_before {c : Chain} {p q : Placed} (hq : q ∈ c.placed) (hlt : q.place < p.place)
    {u : UnspentOutput} (hcreates : q.Creates u)
    (hkept : ∀ r ∈ c.before p, q.place ≤ r.place → ¬ r.Spends u.point) :
    Placed.Live (c.before p) u :=
  ⟨q, List.mem_filter.mpr ⟨hq, decide_eq_true hlt⟩, hcreates, hkept⟩

/-- A chain with a payment that gives change, and with one of several outputs that
an address makes to itself. -/
def circulating : Chain :=
  holding [
    [.coinbase 1 "a"],
    [.coinbase 2 "b", ⟨"change", [.unresolved ⟨1, 0, 0⟩ "s"], [⟨"b", 20⟩, ⟨"a", 37⟩]⟩],
    [.coinbase 3 "a",
      ⟨"itself", [.unresolved ⟨2, 0, 0⟩ "s", .unresolved ⟨2, 1, 0⟩ "s"], [⟨"b", 77⟩]⟩]]

theorem addressable_circulating : circulating.Addressable :=
  ⟨by decide, by decide, by decide⟩

theorem holds_57 : Amount.Holds 57 57 := Amount.holds_of_unpack 57 47 (by decide) (by decide) rfl

theorem holds_20 : Amount.Holds 20 20 := Amount.holds_of_unpack 20 48 (by decide) (by decide) rfl

theorem holds_37 : Amount.Holds 37 37 := Amount.holds_of_unpack 37 47 (by decide) (by decide) rfl

theorem holds_77 : Amount.Holds 77 77 := Amount.holds_of_unpack 77 46 (by decide) (by decide) rfl

/-- The payments of the chain spend outputs of one address each that are unspent
before, and pay out as much as these are worth. -/
theorem payments_circulating : ∀ p ∈ circulating.placed, p.tx.isCoinbase = false →
    ∃ us, Placed.Sources (circulating.before p) p us ∧ worth us = p.tx.worth ∧
      ∃ owner, ∀ u ∈ us, u.address = owner := by
  change ∀ p ∈ _ :: _ :: _ :: _ :: _ :: [], _
  simp only [List.forall_mem_cons]
  refine ⟨fun h => absurd h (by decide), fun h => absurd h (by decide), fun _ => ?_,
    fun h => absurd h (by decide), fun _ => ?_, fun _ hp => absurd hp List.not_mem_nil⟩
  · refine ⟨[⟨⟨1, 0, 0⟩, "a", 57⟩], ⟨rfl, by decide, ?_⟩, ?_, "a", by decide⟩
    · simp only [List.forall_mem_singleton]
      exact live_before ((mem_placed_iff _ ⟨1, _, 0, _⟩).mpr ⟨rfl, rfl⟩) (by decide)
        ⟨0, _, rfl, rfl⟩ (by decide)
    · norm_num [worth, Transaction.worth, holds_57.2, holds_20.2, holds_37.2]
  · refine ⟨[⟨⟨2, 0, 0⟩, "b", 57⟩, ⟨⟨2, 1, 0⟩, "b", 20⟩], ⟨rfl, by decide, ?_⟩, ?_, "b",
      by decide⟩
    · simp only [List.forall_mem_cons]
      refine ⟨?_, ?_, fun _ hu => absurd hu List.not_mem_nil⟩
      · exact live_before ((mem_placed_iff _ ⟨2, _, 0, _⟩).mpr ⟨rfl, rfl⟩) (by decide)
          ⟨0, _, rfl, rfl⟩ (by decide)
      · exact live_before ((mem_placed_iff _ ⟨2, _, 1, _⟩).mpr ⟨rfl, rfl⟩) (by decide)
          ⟨0, _, rfl, rfl⟩ (by decide)
    · norm_num [worth, Transaction.worth, holds_57.2, holds_20.2, holds_77.2]

theorem worth_unspent_circulating :
    (∀ p ∈ circulating.placed, p.tx.isCoinbase = false →
      ∃ us, Placed.Sources (circulating.before p) p us ∧ worth us = p.tx.worth) ∧
      circulating.isValid = true ∧ circulating.Addressable ∧
      worth (circulating.unspent "") =
        minted (circulating.blocks.flatMap Block.transactions) := by
  have hbalanced : ∀ p ∈ circulating.placed, p.tx.isCoinbase = false →
      ∃ us, Placed.Sources (circulating.before p) p us ∧ worth us = p.tx.worth := by
    intro p hp hcoinbase
    obtain ⟨us, hsources, hpaid, _⟩ := payments_circulating p hp hcoinbase
    exact ⟨us, hsources, hpaid⟩
  exact ⟨hbalanced, isValid_holding _, addressable_circulating,
    worth_unspent hbalanced (isValid_holding _) addressable_circulating⟩

end Chain

end WorkLedger
