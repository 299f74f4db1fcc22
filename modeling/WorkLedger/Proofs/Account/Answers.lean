import WorkLedger.Proofs.Account.Resolved

/-!
# Chains that answer

Asking for a block fails exactly if one of its inputs points at no output of the
chain. So a chain without such inputs answers all questions about its blocks and
accounts, wherever its blocks stand (`Resolves.answers`), and one whose blocks stand
in place has to be without them (`answers_iff`).
-/

namespace WorkLedger

namespace Chain

/-- Every question about the blocks and the accounts of a chain has an answer. -/
structure Answers (c : Chain) : Prop where
  details : ∀ index, ∃ b, c.details index = .ok b
  account : ∀ address, ∃ entries, c.account address = .ok entries
  balance : ∀ address, ∃ x, c.balance address = .ok x

variable {c : Chain}

theorem exists_resolveInput_iff {index : UInt64} {i : TxIn} :
    (∃ r, c.resolveInput index i = .ok r) ↔ (c.output? i.point).isSome = true := by
  rw [resolveInput]
  cases c.output? i.point <;> simp

theorem exists_resolveTransaction_iff {index : UInt64} {tx : Transaction} :
    (∃ r, c.resolveTransaction index tx = .ok r) ↔
      ∀ i ∈ tx.ins, (c.output? i.point).isSome = true := by
  rw [resolveTransaction, exists_map_eq_ok_iff, exists_mapM_eq_ok_iff]
  simp only [exists_resolveInput_iff]

/-- Asking for a block fails exactly if one of its inputs points at no output. -/
theorem exists_details_iff {index : UInt64} :
    (∃ found, c.details index = .ok found) ↔
      ∀ b, c.get? index = some b →
        ∀ tx ∈ b.transactions, ∀ i ∈ tx.ins, (c.output? i.point).isSome = true := by
  rw [details]
  cases c.get? index with
  | none => simp
  | some b =>
      simp only [exists_map_eq_ok_iff, exists_mapM_eq_ok_iff, exists_resolveTransaction_iff,
        Option.some.injEq, forall_eq']

theorem mem_of_get? {index : UInt64} {b : Block} (h : c.get? index = some b) : b ∈ c.blocks :=
  List.mem_of_getElem? (Option.filter_eq_some_iff.mp h).1

theorem Resolves.answers (h : c.Resolves) : c.Answers := by
  have hdetails : ∀ index, ∃ found, c.details index = .ok found := fun index =>
    exists_details_iff.mpr fun b hb => h b (mem_of_get? hb)
  have haccount : ∀ address, ∃ entries, c.account address = .ok entries := by
    intro address
    rw [account, exists_map_eq_ok_iff, exists_mapM_eq_ok_iff]
    exact fun b _ => hdetails b.index
  refine ⟨hdetails, haccount, fun address => ?_⟩
  rw [balance, exists_map_eq_ok_iff]
  exact haccount address

/-- A chain whose blocks stand in place answers exactly if every input points at one
of its outputs. -/
theorem Indexed.answers_iff (h : c.Indexed) : c.Answers ↔ c.Resolves := by
  refine ⟨fun hanswers b hb => ?_, Resolves.answers⟩
  obtain ⟨i, hi⟩ := List.getElem?_of_mem hb
  exact exists_details_iff.mp (hanswers.details b.index) b (h.get?_eq hi)

end Chain

end WorkLedger
