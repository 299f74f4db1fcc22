import WorkLedger.Proofs.Account.Resolved
import WorkLedger.Proofs.Transaction.IdText

/-!
# Where a transaction is found

A search for an id goes through a chain from the front and ends at the first transaction that has
it. The text behind an id opens with the index of the block. So if the transactions have their ids
and no two of the texts collide, the search ends in the block of the transaction, wherever it was
repeated. It ends at its place exactly if no transaction before it in the block has the same text.
-/

namespace WorkLedger

theorem findIdx_congr {α : Type*} {p q : α → Bool} {l : List α} (h : ∀ x ∈ l, p x = q x) :
    l.findIdx p = l.findIdx q := by
  induction l with
  | nil => rfl
  | cons x l ih =>
      rw [List.findIdx_cons, List.findIdx_cons, h x List.mem_cons_self,
        ih fun y hy => h y (List.mem_cons_of_mem x hy)]

namespace Chain

/-- Every transaction has the id that it has in its block. -/
def Identified (c : Chain) : Prop := ∀ b ∈ c.blocks, ∀ tx ∈ b.transactions, tx.id = tx.idIn b.index

/-- No two different texts behind the ids in a chain have the same digest. -/
def IdsFree (c : Chain) : Prop :=
  ∀ b ∈ c.blocks, ∀ tx ∈ b.transactions, ∀ d ∈ c.blocks, ∀ ux ∈ d.transactions,
    tx.idIn b.index = ux.idIn d.index → tx.idChars b.index = ux.idChars d.index

/-- No two transactions of a block have the same id, and each one is found where it stands. -/
structure Located (c : Chain) : Prop where
  nodup : ∀ b ∈ c.blocks, (b.transactions.map Transaction.id).Nodup
  found : ∀ b ∈ c.blocks, ∀ (n : ℕ) (tx : Transaction), b.transactions[n]? = some tx →
    c.find? tx.id = some (b.index, n)

/-- Ids do not collide if all texts are among some whose digests differ. -/
theorem idsFree_of_nodup {c : Chain} (texts : List (List Char))
    (htexts : ∀ b ∈ c.blocks, ∀ tx ∈ b.transactions, tx.idChars b.index ∈ texts)
    (hnodup : (texts.map fun text => Sha256.hexOfText (String.ofList text)).Nodup) : c.IdsFree :=
  fun b hb tx htx d hd ux hux hid =>
    List.inj_on_of_nodup_map hnodup (htexts b hb tx htx) (htexts d hd ux hux) hid

section

variable {c : Chain} (hids : c.Identified) (hfree : c.IdsFree)

include hids hfree

theorem id_eq_iff {b d : Block} (hb : b ∈ c.blocks) (hd : d ∈ c.blocks) {tx ux : Transaction}
    (htx : tx ∈ b.transactions) (hux : ux ∈ d.transactions) :
    tx.id = ux.id ↔ tx.idChars b.index = ux.idChars d.index := by
  rw [hids b hb tx htx, hids d hd ux hux]
  refine ⟨hfree b hb tx htx d hd ux hux, fun h => ?_⟩
  rw [Transaction.idIn, Transaction.idIn, h]

theorem nodup_id_iff {b : Block} (hb : b ∈ c.blocks) : (b.transactions.map Transaction.id).Nodup ↔
    b.transactions.Pairwise fun x y => x.idChars b.index ≠ y.idChars b.index := by
  rw [List.Nodup, List.pairwise_map]
  exact List.Pairwise.iff_of_mem fun hx hy => not_congr (id_eq_iff hids hfree hb hb hx hy)

variable (hindexed : c.Indexed)

include hindexed

/-- A search for the id of a transaction ends in its block. -/
theorem find?_id {b : Block} (hb : b ∈ c.blocks) {tx : Transaction} (htx : tx ∈ b.transactions) :
    c.find? tx.id =
      (b.transactions.findIdx? fun ux => ux.id == tx.id).map fun n => (b.index, n) := by
  obtain ⟨before, after, hblocks⟩ := List.append_of_mem hb
  have hearlier : before.findSome? (fun d =>
      (d.transactions.findIdx? fun ux => ux.id == tx.id).map fun n => (d.index, n)) = none := by
    rw [List.findSome?_eq_none_iff]
    intro d hd
    rw [Option.map_eq_none_iff, List.findIdx?_eq_none_iff]
    intro ux hux
    rw [beq_eq_false_iff_ne]
    intro hid
    have hmem : d ∈ c.blocks := hblocks ▸ List.mem_append_left _ hd
    have hindex := (Transaction.eq_of_idChars ((id_eq_iff hids hfree hmem hb hux htx).mp hid)).1
    obtain ⟨i, hi⟩ := List.getElem?_of_mem hd
    have hlt := (List.getElem?_eq_some_iff.mp hi).1
    have hdplace : d.index.toNat = i := hindexed i d <| by
      rw [hblocks, List.getElem?_append_left hlt, hi]
    have hbplace : b.index.toNat = before.length := hindexed before.length b <| by
      rw [hblocks, List.getElem?_append_right (le_refl _), Nat.sub_self, List.getElem?_cons_zero]
    rw [← hdplace, hindex, hbplace] at hlt
    exact lt_irrefl _ hlt
  rw [find?, hblocks, List.findSome?_append, hearlier, Option.none_or, List.findSome?_cons]
  cases hfound : b.transactions.findIdx? fun ux => ux.id == tx.id with
  | none =>
      have hdiffers := List.findIdx?_eq_none_iff.mp hfound tx htx
      rw [beq_self_eq_true] at hdiffers
      cases hdiffers
  | some n => rfl

/-- A transaction is found at the first place in its block where the text behind its id occurs. -/
theorem find?_id_eq_some {b : Block} (hb : b ∈ c.blocks) {tx : Transaction}
    (htx : tx ∈ b.transactions) : c.find? tx.id = some (b.index,
      (b.transactions.map fun ux => ux.idChars b.index).idxOf (tx.idChars b.index)) := by
  have hsame : ∀ ux ∈ b.transactions,
      (ux.id == tx.id) = (ux.idChars b.index == tx.idChars b.index) := by
    intro ux hux
    rw [Bool.eq_iff_iff, beq_iff_eq, beq_iff_eq, id_eq_iff hids hfree hb hb hux htx]
  have hfirst : (b.transactions.findIdx? fun ux => ux.id == tx.id) =
      some (b.transactions.findIdx fun ux => ux.id == tx.id) :=
    List.findIdx?_eq_some_of_exists ⟨tx, htx, beq_self_eq_true tx.id⟩
  rw [find?_id hids hfree hindexed hb htx, hfirst, findIdx_congr hsame, List.idxOf,
    List.findIdx_map]
  rfl

/-- Every transaction is found where it stands exactly if the texts behind the ids in each block
differ. -/
theorem located_iff_pairwise : c.Located ↔ ∀ b ∈ c.blocks,
    b.transactions.Pairwise fun x y => x.idChars b.index ≠ y.idChars b.index := by
  constructor
  · exact fun h b hb => (nodup_id_iff hids hfree hb).mp (h.nodup b hb)
  · refine fun h => ⟨fun b hb => (nodup_id_iff hids hfree hb).mpr (h b hb), ?_⟩
    intro b hb n tx hn
    have hnodup : (b.transactions.map fun ux => ux.idChars b.index).Nodup :=
      List.pairwise_map.mpr (h b hb)
    obtain ⟨hlt, rfl⟩ := List.getElem?_eq_some_iff.mp hn
    have hplace := hnodup.idxOf_getElem n (by rwa [List.length_map])
    rw [List.getElem_map] at hplace
    rw [find?_id_eq_some hids hfree hindexed hb (List.getElem_mem hlt), hplace]

end

end Chain

end WorkLedger
