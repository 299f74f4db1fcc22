import Mathlib.Data.List.Nodup
import Mathlib.Data.Prod.Lex
import WorkLedger.Chain.Unspent
import WorkLedger.Proofs.Block.Sequence

/-!
# The places of a chain

A transaction stands at a place: the height of its block, counted from the first
block of the chain, and its position in the block. The transactions of a chain
are in lexicographic order of their places. As long as no index wraps that is the
order by index and position as well (`place_le_iff`).

An output is named by a point, which holds the index of the block instead of its
height, and words instead of numbers. In a valid chain that fits into memory no
two outputs have the same point (`nodup_points`).
-/

namespace WorkLedger

/-- A transaction of a chain, with its block and the place where it stands. -/
structure Placed where
  height : ℕ
  block : Block
  position : ℕ
  tx : Transaction

namespace Placed

/-- The place of a transaction, in lexicographic order. -/
def place (p : Placed) : ℕ ×ₗ ℕ := toLex (p.height, p.position)

/-- The point of an output of a transaction. -/
def point (p : Placed) (n : ℕ) : OutPoint :=
  ⟨p.block.index, UInt64.ofNat p.position, UInt64.ofNat n⟩

/-- A transaction creates its outputs, at their points. -/
def Creates (p : Placed) (u : UnspentOutput) : Prop :=
  ∃ n o, p.tx.outs[n]? = some o ∧ u = ⟨p.point n, o.address, o.amount⟩

/-- A transaction that is no coinbase spends the points of its inputs. -/
def Spends (p : Placed) (x : OutPoint) : Prop :=
  p.tx.isCoinbase = false ∧ ∃ i ∈ p.tx.ins, i.point = x

instance (p : Placed) (x : OutPoint) : Decidable (p.Spends x) :=
  inferInstanceAs (Decidable (_ ∧ _))

/-- The outputs that a transaction creates, in order. -/
def created (p : Placed) : List UnspentOutput :=
  p.tx.outs.zipIdx.map fun on => ⟨p.point on.2, on.1.address, on.1.amount⟩

theorem mem_created_iff (p : Placed) (u : UnspentOutput) : u ∈ p.created ↔ p.Creates u := by
  simp only [created, Creates, List.mem_map, Prod.exists, List.mem_zipIdx_iff_getElem?]
  constructor
  · rintro ⟨o, n, hget, rfl⟩
    exact ⟨n, o, hget, rfl⟩
  · rintro ⟨n, o, hget, rfl⟩
    exact ⟨o, n, hget, rfl⟩

theorem mem_spent_iff (p : Placed) (x : OutPoint) : x ∈ p.tx.spent ↔ p.Spends x := by
  unfold Transaction.spent Spends
  cases p.tx.isCoinbase <;> simp

theorem points_created (p : Placed) :
    p.created.map UnspentOutput.point = (List.range p.tx.outs.length).map p.point := by
  rw [created, List.map_map, List.range_eq_range', ← List.zipIdx_map_snd 0 p.tx.outs,
    List.map_map]
  rfl

theorem amounts_created (p : Placed) :
    p.created.map UnspentOutput.amount = p.tx.outs.map TxOut.amount := by
  rw [created, List.map_map]
  conv_rhs => rw [← List.zipIdx_map_fst 0 p.tx.outs, List.map_map]
  rfl

end Placed

theorem pairwise_zipIdx {α : Type*} (l : List α) : l.zipIdx.Pairwise fun a b => a.2 < b.2 := by
  apply List.pairwise_map.mp
  rw [List.zipIdx_map_snd]
  exact List.pairwise_lt_range'

namespace Chain

/-- The transactions of a chain with their places, in the order of the chain. -/
def placed (c : Chain) : List Placed :=
  c.blocks.zipIdx.flatMap fun bi => bi.1.transactions.zipIdx.map fun tn =>
    ⟨bi.2, bi.1, tn.2, tn.1⟩

theorem mem_placed_iff (c : Chain) (p : Placed) :
    p ∈ c.placed ↔ c.blocks[p.height]? = some p.block ∧
      p.block.transactions[p.position]? = some p.tx := by
  simp only [placed, List.mem_flatMap, List.mem_map, Prod.exists, List.mem_zipIdx_iff_getElem?]
  constructor
  · rintro ⟨b, i, hb, tx, n, htx, rfl⟩
    exact ⟨hb, htx⟩
  · rintro ⟨hb, htx⟩
    exact ⟨p.block, p.height, hb, p.tx, p.position, htx, rfl⟩

theorem pairwise_placed (c : Chain) : c.placed.Pairwise fun p q => p.place < q.place := by
  rw [placed, List.pairwise_flatMap]
  constructor
  · intro bi _
    rw [List.pairwise_map]
    apply (pairwise_zipIdx bi.1.transactions).imp
    intro _ _ h
    exact Prod.Lex.toLex_lt_toLex.mpr (Or.inr ⟨rfl, h⟩)
  · apply (pairwise_zipIdx c.blocks).imp
    intro _ _ h p hp q hq
    obtain ⟨_, _, rfl⟩ := List.mem_map.mp hp
    obtain ⟨_, _, rfl⟩ := List.mem_map.mp hq
    exact Prod.Lex.toLex_lt_toLex.mpr (Or.inl h)

/-- A chain whose blocks hold some transactions each, on top of the first block. -/
def holding (held : List (List Transaction)) : Chain :=
  ofBlocks (Block.genesis :: Block.genesis.stack held)

theorem isValid_holding (held : List (List Transaction)) : (holding held).isValid = true :=
  Block.isSequence_stack Block.genesis held

/-- The lists of a chain fit into memory, so that positions in them are words. -/
structure Addressable (c : Chain) : Prop where
  blocks : c.blocks.length ≤ UInt64.size
  transactions : ∀ b ∈ c.blocks, b.transactions.length ≤ UInt64.size
  outs : ∀ b ∈ c.blocks, ∀ tx ∈ b.transactions, tx.outs.length ≤ UInt64.size

theorem ofNat_inj_of_lt_length {α β : Type*} {as : List α} {bs : List β} {i j : ℕ}
    (has : as.length ≤ UInt64.size) (hbs : bs.length ≤ UInt64.size) (hi : i < as.length)
    (hj : j < bs.length) (h : UInt64.ofNat i = UInt64.ofNat j) : i = j := by
  rw [← UInt64.toNat_ofNat_of_lt' (lt_of_lt_of_le hi has), h,
    UInt64.toNat_ofNat_of_lt' (lt_of_lt_of_le hj hbs)]

section

variable {c : Chain} (hvalid : c.isValid = true) {p q : Placed} (hp : p ∈ c.placed)
  (hq : q ∈ c.placed)

include hvalid hp

theorem exists_first_index : ∃ first, c.first? = some first ∧
    p.block.index = first.index + UInt64.ofNat p.height := by
  have hpb := ((c.mem_placed_iff p).mp hp).1
  have hne : c.blocks ≠ [] := by
    intro hnil
    rw [hnil] at hpb
    cases hpb
  have hfirst := List.head?_eq_some_head hne
  exact ⟨_, hfirst, Block.index_of_isSequence hvalid hfirst hpb⟩

include hq

theorem height_eq_of_index (hlength : c.blocks.length ≤ UInt64.size)
    (h : p.block.index = q.block.index) : p.height = q.height := by
  obtain ⟨first, hfirst, hpindex⟩ := exists_first_index hvalid hp
  obtain ⟨first', hfirst', hqindex⟩ := exists_first_index hvalid hq
  obtain rfl := Option.some.inj (hfirst.symm.trans hfirst')
  rw [hpindex, hqindex, UInt64.add_right_inj] at h
  exact ofNat_inj_of_lt_length hlength hlength
    (List.getElem?_eq_some_iff.mp ((c.mem_placed_iff p).mp hp).1).1
    (List.getElem?_eq_some_iff.mp ((c.mem_placed_iff q).mp hq).1).1 h

/-- Points of outputs of different transactions are different. -/
theorem place_eq_of_point (hsmall : c.Addressable) {n m : ℕ} (h : p.point n = q.point m) :
    p.place = q.place := by
  obtain ⟨hpb, hpt⟩ := (c.mem_placed_iff p).mp hp
  obtain ⟨hqb, hqt⟩ := (c.mem_placed_iff q).mp hq
  rw [Placed.point, Placed.point, OutPoint.mk.injEq] at h
  obtain ⟨hindex, hposition, _⟩ := h
  have hheight := height_eq_of_index hvalid hp hq hsmall.blocks hindex
  have hpos := ofNat_inj_of_lt_length (hsmall.transactions _ (List.mem_of_getElem? hpb))
    (hsmall.transactions _ (List.mem_of_getElem? hqb)) (List.getElem?_eq_some_iff.mp hpt).1
    (List.getElem?_eq_some_iff.mp hqt).1 hposition
  rw [Placed.place, Placed.place, hheight, hpos]

/-- As long as no index wraps, places are in the order of index and position. -/
theorem place_le_iff (hroom : ∀ first, c.first? = some first →
      first.index.toNat + c.blocks.length ≤ UInt64.size) :
    p.place ≤ q.place ↔ toLex (p.block.index.toNat, p.position) ≤
      toLex (q.block.index.toNat, q.position) := by
  obtain ⟨first, hfirst, hpindex⟩ := exists_first_index hvalid hp
  obtain ⟨first', hfirst', hqindex⟩ := exists_first_index hvalid hq
  obtain rfl := Option.some.inj (hfirst.symm.trans hfirst')
  have hindex : ∀ i < c.blocks.length,
      (first.index + UInt64.ofNat i).toNat = first.index.toNat + i := by
    intro i hi
    have hlt : first.index.toNat + i < UInt64.size := by
      have := hroom first hfirst
      omega
    rw [UInt64.toNat_add, UInt64.toNat_ofNat_of_lt' (by omega), Nat.mod_eq_of_lt hlt]
  have hplt := (List.getElem?_eq_some_iff.mp ((c.mem_placed_iff p).mp hp).1).1
  have hqlt := (List.getElem?_eq_some_iff.mp ((c.mem_placed_iff q).mp hq).1).1
  rw [hpindex, hqindex, hindex _ hplt, hindex _ hqlt, Placed.place, Placed.place,
    Prod.Lex.toLex_le_toLex, Prod.Lex.toLex_le_toLex, Nat.add_lt_add_iff_left,
    Nat.add_left_cancel_iff]

end

/-- No two outputs of a valid chain have the same point. -/
theorem nodup_points {c : Chain} (hvalid : c.isValid = true) (hsmall : c.Addressable) :
    ((c.placed.flatMap Placed.created).map UnspentOutput.point).Nodup := by
  rw [List.map_flatMap, List.nodup_flatMap]
  simp only [Placed.points_created]
  constructor
  · intro p hp
    obtain ⟨hpb, hpt⟩ := (c.mem_placed_iff p).mp hp
    have houts := hsmall.outs _ (List.mem_of_getElem? hpb) _ (List.mem_of_getElem? hpt)
    refine List.nodup_range.map_on fun n hn m hm h => ?_
    rw [Placed.point, Placed.point, OutPoint.mk.injEq] at h
    exact ofNat_inj_of_lt_length houts houts (List.mem_range.mp hn) (List.mem_range.mp hm)
      h.2.2
  · refine c.pairwise_placed.imp_of_mem fun hp hq hlt x hxp hxq => ?_
    obtain ⟨n, _, rfl⟩ := List.mem_map.mp hxp
    obtain ⟨m, _, hpoint⟩ := List.mem_map.mp hxq
    rw [place_eq_of_point hvalid hp hq hsmall hpoint.symm] at hlt
    exact lt_irrefl _ hlt

end Chain

end WorkLedger
