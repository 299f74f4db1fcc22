import Mathlib.Data.List.Flatten
import WorkLedger.Proofs.Unspent.Order
import WorkLedger.Proofs.Unspent.Places

/-!
# What going through a chain leaves unspent

Going through the transactions of a chain puts in the outputs of each and then
takes out what it spends. If no two outputs have the same point, one transaction
leaves exactly the old and the new outputs that it does not spend, and so the
whole run leaves the outputs that no transaction from the creating one on spends.
What an earlier transaction spends does not matter, since the output is not yet
there to be taken out.
-/

namespace WorkLedger

namespace UnspentOutput

/-- Whether an output pays to an address, or to any if the address is empty. -/
def paysTo (address : String) (u : UnspentOutput) : Bool :=
  address.isEmpty || u.address == address

theorem paysTo_iff (address : String) (u : UnspentOutput) :
    u.paysTo address = true ↔ address = "" ∨ u.address = address := by
  simp [paysTo]

end UnspentOutput

namespace Placed

/-- The outputs that a transaction creates for an address, or all if the address
is empty. -/
def createdFor (address : String) (p : Placed) : List UnspentOutput :=
  p.created.filter fun u => u.paysTo address

/-- Goes through a transaction. -/
def apply (address : String) (us : List UnspentOutput) (p : Placed) : List UnspentOutput :=
  p.tx.applyTo p.block.index p.position address us

/-- The unspent outputs after going through some transactions. -/
def replay (address : String) (ps : List Placed) : List UnspentOutput :=
  ps.foldl (apply address) []

theorem createdFor_eq (address : String) (p : Placed) :
    p.tx.createdFor p.block.index p.position address = p.createdFor address := by
  rw [Transaction.createdFor, createdFor, created]
  induction p.tx.outs.zipIdx with
  | nil => rfl
  | cons on rest ih =>
      obtain ⟨o, n⟩ := on
      rw [List.filterMap_cons, List.map_cons, List.filter_cons, ih, UnspentOutput.paysTo]
      cases hpays : address.isEmpty || o.address == address <;> simp only [hpays] <;> rfl

theorem apply_eq (address : String) (us : List UnspentOutput) (p : Placed) :
    apply address us p =
      ((p.createdFor address).foldl (fun us u => u.insert us) us).filter
        fun u => u.point ∉ p.tx.spent := by
  rw [apply, Transaction.applyTo, UnspentOutput.foldl_erase, createdFor_eq]

theorem replay_append_singleton (address : String) (ps : List Placed) (p : Placed) :
    replay address (ps ++ [p]) = apply address (replay address ps) p := by
  rw [replay, List.foldl_append]
  rfl

theorem sorted_replay (address : String) (ps : List Placed) :
    UnspentOutput.Sorted (replay address ps) := by
  induction ps using List.reverseRecOn with
  | nil => exact List.Pairwise.nil
  | append_singleton ps p ih =>
      rw [replay_append_singleton, apply_eq]
      exact (ih.foldl_insert _).filter _

theorem mem_flatMap_of_mem_replay {address : String} {ps : List Placed} {u : UnspentOutput}
    (h : u ∈ replay address ps) : u ∈ ps.flatMap created := by
  induction ps using List.reverseRecOn with
  | nil => cases h
  | append_singleton ps p ih =>
      rw [replay_append_singleton, apply_eq] at h
      rw [List.flatMap_append, List.flatMap_singleton, List.mem_append]
      rcases UnspentOutput.mem_of_mem_foldl_insert (List.mem_of_mem_filter h) with hold | hnew
      · exact Or.inl (ih hold)
      · exact Or.inr (List.mem_of_mem_filter hnew)

/-- No two outputs of some transactions have the same point. -/
def DistinctPoints (ps : List Placed) : Prop :=
  ((ps.flatMap created).map UnspentOutput.point).Nodup

theorem DistinctPoints.sublist {ps qs : List Placed} (h : DistinctPoints qs)
    (hsub : ps.Sublist qs) : DistinctPoints ps :=
  List.Nodup.sublist ((hsub.flatMap created).map UnspentOutput.point) h

theorem DistinctPoints.replay_append {address : String} {ps : List Placed} {p : Placed}
    (h : DistinctPoints (ps ++ [p])) :
    ((replay address ps ++ p.createdFor address).map UnspentOutput.point).Nodup := by
  rw [DistinctPoints, List.flatMap_append, List.flatMap_singleton, List.map_append,
    List.nodup_append'] at h
  obtain ⟨_, hnew, hdisjoint⟩ := h
  have hsub := List.filter_sublist (p := fun u => u.paysTo address) (l := p.created)
  rw [List.map_append, List.nodup_append']
  refine ⟨(sorted_replay address ps).nodup_points,
    hnew.sublist (hsub.map UnspentOutput.point), ?_⟩
  intro x hold hcreated
  obtain ⟨u, hu, rfl⟩ := List.mem_map.mp hold
  exact hdisjoint (List.mem_map_of_mem (mem_flatMap_of_mem_replay hu))
    ((hsub.map UnspentOutput.point).subset hcreated)

/-- A transaction leaves the old and the new outputs that it does not spend. -/
theorem replay_append_singleton_perm (address : String) {ps : List Placed} {p : Placed}
    (h : DistinctPoints (ps ++ [p])) :
    (replay address (ps ++ [p])).Perm
      ((replay address ps ++ p.createdFor address).filter fun u => u.point ∉ p.tx.spent) := by
  rw [replay_append_singleton, apply_eq]
  exact (UnspentOutput.foldl_insert_perm h.replay_append).filter _

/-- Among the outputs of some transactions, one is live if no transaction from
its own on spends it. -/
def Live (ps : List Placed) (u : UnspentOutput) : Prop :=
  ∃ p ∈ ps, p.Creates u ∧ ∀ q ∈ ps, p.place ≤ q.place → ¬ q.Spends u.point

theorem live_append_singleton_iff {ps : List Placed} {p : Placed}
    (hlast : ∀ q ∈ ps, q.place < p.place) (u : UnspentOutput) :
    Live (ps ++ [p]) u ↔ (Live ps u ∨ p.Creates u) ∧ ¬ p.Spends u.point := by
  constructor
  · rintro ⟨q, hq, hcreates, hkept⟩
    have hp : p ∈ ps ++ [p] := List.mem_append_right ps (List.mem_singleton_self p)
    rcases List.mem_append.mp hq with hold | hnew
    · refine ⟨Or.inl ⟨q, hold, hcreates, ?_⟩, hkept p hp (hlast q hold).le⟩
      exact fun r hr => hkept r (List.mem_append_left _ hr)
    · obtain rfl := List.mem_singleton.mp hnew
      exact ⟨Or.inr hcreates, hkept q hp le_rfl⟩
  · rintro ⟨⟨q, hq, hcreates, hkept⟩ | hcreates, hspends⟩
    · refine ⟨q, List.mem_append_left _ hq, hcreates, ?_⟩
      intro r hr hle
      rcases List.mem_append.mp hr with hold | hnew
      · exact hkept r hold hle
      · rwa [List.mem_singleton.mp hnew]
    · refine ⟨p, List.mem_append_right ps (List.mem_singleton_self p), hcreates, ?_⟩
      intro r hr hle
      rcases List.mem_append.mp hr with hold | hnew
      · exact absurd hle (not_le.mpr (hlast r hold))
      · rwa [List.mem_singleton.mp hnew]

/-- Going through transactions in their order leaves the live outputs that pay to
the address. -/
theorem mem_replay_iff (address : String) {ps : List Placed} (h : DistinctPoints ps)
    (horder : ps.Pairwise fun p q => p.place < q.place) (u : UnspentOutput) :
    u ∈ replay address ps ↔ u.paysTo address = true ∧ Live ps u := by
  induction ps using List.reverseRecOn with
  | nil => simp [replay, Live]
  | append_singleton ps p ih =>
      obtain ⟨hbefore, _, hlast⟩ := List.pairwise_append.mp horder
      have hlast' : ∀ q ∈ ps, q.place < p.place :=
        fun q hq => hlast q hq p (List.mem_singleton_self p)
      rw [(replay_append_singleton_perm address h).mem_iff, List.mem_filter, List.mem_append,
        ih (h.sublist (List.sublist_append_left ps [p])) hbefore, createdFor, List.mem_filter,
        mem_created_iff, live_append_singleton_iff hlast', decide_eq_true_eq, mem_spent_iff]
      tauto

end Placed

namespace Chain

theorem unspent_eq_replay (c : Chain) (address : String) :
    c.unspent address = Placed.replay address c.placed := by
  rw [unspent, Placed.replay, placed, List.foldl_flatMap]
  conv_lhs => rw [← List.zipIdx_map_fst 0 c.blocks, List.foldl_map]
  simp only [List.foldl_map]
  rfl

/-- The unspent outputs of a valid chain are listed in the strict order of their
points. They are the outputs that pay to the address, or all if it is empty, as
far as no transaction from the creating one on spends them. -/
theorem unspent_listing {c : Chain} (hvalid : c.isValid = true) (hsmall : c.Addressable)
    (address : String) :
    ((c.unspent address).Pairwise fun u v => u.point.key < v.point.key) ∧
      ∀ u, u ∈ c.unspent address ↔ (address = "" ∨ u.address = address) ∧
        ∃ p ∈ c.placed, p.Creates u ∧
          ∀ q ∈ c.placed, p.place ≤ q.place → ¬ q.Spends u.point := by
  rw [unspent_eq_replay]
  refine ⟨Placed.sorted_replay address c.placed, fun u => ?_⟩
  rw [← UnspentOutput.paysTo_iff]
  exact Placed.mem_replay_iff address (nodup_points hvalid hsmall) c.pairwise_placed u

/-- A chain with an input that points ahead, one that points nowhere, a transaction
that spends an output of its own, and an output that is spent twice. -/
def tangled : Chain :=
  holding [
    [.coinbase 1 "a",
      ⟨"ahead", [.unresolved ⟨1, 2, 0⟩ "s", .unresolved ⟨9, 9, 9⟩ "s"], [⟨"a", 5⟩, ⟨"b", 6⟩]⟩,
      ⟨"itself", [.unresolved ⟨1, 2, 1⟩ "s"], [⟨"a", 7⟩, ⟨"b", 8⟩, ⟨"c", 9⟩]⟩],
    [.coinbase 2 "a",
      ⟨"first", [.unresolved ⟨1, 0, 0⟩ "s"], [⟨"b", 57⟩]⟩,
      ⟨"second", [.unresolved ⟨1, 0, 0⟩ "s"], [⟨"c", 57⟩]⟩]]

theorem addressable_tangled : tangled.Addressable :=
  ⟨by decide, by decide, by decide⟩

example : (tangled.unspent "").map UnspentOutput.point =
    [⟨1, 1, 0⟩, ⟨1, 1, 1⟩, ⟨1, 2, 0⟩, ⟨1, 2, 2⟩, ⟨2, 0, 0⟩, ⟨2, 1, 0⟩, ⟨2, 2, 0⟩] := by
  decide

theorem unspent_listing_tangled :
    tangled.isValid = true ∧ tangled.Addressable ∧
      ((tangled.unspent "").Pairwise fun u v => u.point.key < v.point.key) ∧
      ∀ u, u ∈ tangled.unspent "" ↔ ("" = "" ∨ u.address = "") ∧
        ∃ p ∈ tangled.placed, p.Creates u ∧
          ∀ q ∈ tangled.placed, p.place ≤ q.place → ¬ q.Spends u.point :=
  ⟨isValid_holding _, addressable_tangled,
    unspent_listing (isValid_holding _) addressable_tangled ""⟩

end Chain

end WorkLedger
