import WorkLedger.Chain.Account
import WorkLedger.Proofs.Fallible
import WorkLedger.Proofs.Unspent.Places

/-!
# Accounts of resolved chains

If every block stands at the position of its index and every input points at an
output of the chain, going through the blocks to resolve the inputs does not
fail. The account of an address then lists what the resolved transactions change,
in order.
-/

namespace WorkLedger

namespace Chain

/-- Every block stands at the position of its index. -/
def Indexed (c : Chain) : Prop :=
  ∀ (i : ℕ) (b : Block), c.blocks[i]? = some b → b.index.toNat = i

theorem indexed_holding {held : List (List Transaction)}
    (hlength : (holding held).blocks.length ≤ UInt64.size) : (holding held).Indexed := by
  intro i b hb
  have hlt := lt_of_lt_of_le (List.getElem?_eq_some_iff.mp hb).1 hlength
  rw [Block.index_of_isSequence (isValid_holding held) rfl hb]
  change (0 + UInt64.ofNat i).toNat = i
  rw [UInt64.zero_add, UInt64.toNat_ofNat_of_lt' hlt]

/-- Every input of a chain points at one of its outputs. -/
def Resolves (c : Chain) : Prop :=
  ∀ b ∈ c.blocks, ∀ tx ∈ b.transactions, ∀ i ∈ tx.ins, (c.output? i.point).isSome = true

/-- An input with the address and the amount of the output it points at. -/
def resolvedInput (c : Chain) (i : TxIn) : TxIn :=
  { i with
    address := (c.output? i.point).map TxOut.address
    amount := (c.output? i.point).map TxOut.amount }

/-- A transaction with resolved inputs. -/
def resolved (c : Chain) (tx : Transaction) : Transaction :=
  { tx with ins := tx.ins.map c.resolvedInput }

/-- A block with resolved transactions. -/
def resolvedBlock (c : Chain) (b : Block) : Block :=
  { b with transactions := b.transactions.map c.resolved }

theorem resolveInput_eq_ok {c : Chain} {i : TxIn} (h : (c.output? i.point).isSome = true)
    (index : UInt64) : c.resolveInput index i = .ok (c.resolvedInput i) := by
  obtain ⟨o, ho⟩ := Option.isSome_iff_exists.mp h
  rw [resolveInput, resolvedInput, ho]
  rfl

theorem resolveTransaction_eq_ok {c : Chain} {tx : Transaction}
    (h : ∀ i ∈ tx.ins, (c.output? i.point).isSome = true) (index : UInt64) :
    c.resolveTransaction index tx = .ok (c.resolved tx) := by
  rw [resolveTransaction, mapM_eq_ok fun i hi => resolveInput_eq_ok (h i hi) index]
  rfl

theorem isCoinbase_resolved (c : Chain) (tx : Transaction) :
    (c.resolved tx).isCoinbase = tx.isCoinbase := by
  obtain ⟨id, ins, outs⟩ := tx
  rcases ins with _ | ⟨i, _ | ⟨j, ins⟩⟩
  · rfl
  · rcases outs with _ | ⟨o, _ | ⟨d, outs⟩⟩ <;> rfl
  · rfl

theorem credit?_resolved (c : Chain) (tx : Transaction) (address : String) :
    (c.resolved tx).credit? address = tx.credit? address := rfl

section

variable {c : Chain} {tx : Transaction} {us : List UnspentOutput}
  (houtput : ∀ u ∈ us, c.output? u.point = some ⟨u.address, u.amount⟩)

include houtput

/-- A transaction is spent by the address of the first output that it spends. -/
theorem isSpentBy_resolved_iff (hpoints : us.map UnspentOutput.point = tx.spent)
    (address : String) : (c.resolved tx).isSpentBy address = true ↔
      us.head?.map UnspentOutput.address = some address := by
  rw [Transaction.isSpentBy, isCoinbase_resolved]
  rw [Transaction.spent] at hpoints
  cases hcoinbase : tx.isCoinbase with
  | true =>
      rw [hcoinbase, if_pos rfl, List.map_eq_nil_iff] at hpoints
      rw [hpoints]
      simp
  | false =>
      rw [hcoinbase, if_neg Bool.false_ne_true] at hpoints
      have hhead : (c.resolved tx).ins.head?.bind TxIn.address =
          (tx.ins.map TxIn.point).head?.bind fun x => (c.output? x).map TxOut.address := by
        rw [resolved, List.head?_map, List.head?_map, Option.bind_map, Option.bind_map]
        rfl
      rw [hhead, ← hpoints]
      cases us with
      | nil => simp
      | cons u rest => simp [houtput u List.mem_cons_self]

/-- The resolved inputs of a transaction that an address spends add up to the
outputs that it spends. -/
theorem inputTotal_resolved (hpoints : us.map UnspentOutput.point = tx.spent)
    {address : String} (hspent : (c.resolved tx).isSpentBy address = true) :
    (c.resolved tx).inputTotal = Amount.sum (us.map UnspentOutput.amount) := by
  rw [Transaction.isSpentBy, isCoinbase_resolved, Bool.and_eq_true, Bool.not_eq_true'] at hspent
  rw [Transaction.spent, hspent.1, if_neg Bool.false_ne_true] at hpoints
  have hins : (c.resolved tx).ins.filterMap TxIn.amount =
      (tx.ins.map TxIn.point).filterMap fun x => (c.output? x).map TxOut.amount := by
    rw [resolved, List.filterMap_map, List.filterMap_map]
    rfl
  have hamounts : us.filterMap (fun u => (c.output? u.point).map TxOut.amount) =
      us.map UnspentOutput.amount := by
    rw [← List.filterMap_eq_map]
    apply List.filterMap_congr
    intro u hu
    rw [houtput u hu]
    rfl
  rw [Transaction.inputTotal, hins, ← hpoints, List.filterMap_map, ← hamounts]
  rfl

end

theorem Indexed.get?_eq {c : Chain} (h : c.Indexed) {i : ℕ} {b : Block}
    (hb : c.blocks[i]? = some b) : c.get? b.index = some b := by
  rw [get?, h i b hb, hb]
  simp

section

variable {c : Chain} (hindexed : c.Indexed)

include hindexed

/-- The output at the point of an output of a transaction. -/
theorem output?_eq_of_creates (hsmall : c.Addressable) {p : Placed} (hp : p ∈ c.placed)
    {u : UnspentOutput} (h : p.Creates u) :
    c.output? u.point = some ⟨u.address, u.amount⟩ := by
  obtain ⟨hb, htx⟩ := (c.mem_placed_iff p).mp hp
  obtain ⟨n, o, ho, rfl⟩ := h
  have hmem := List.mem_of_getElem? hb
  have hposition := lt_of_lt_of_le (List.getElem?_eq_some_iff.mp htx).1
    (hsmall.transactions _ hmem)
  have hout := lt_of_lt_of_le (List.getElem?_eq_some_iff.mp ho).1
    (hsmall.outs _ hmem _ (List.mem_of_getElem? htx))
  rw [output?, Placed.point, hindexed.get?_eq hb, Option.bind_some,
    UInt64.toNat_ofNat_of_lt' hposition, htx, Option.bind_some,
    UInt64.toNat_ofNat_of_lt' hout, ho]

variable (hresolves : c.Resolves)

include hresolves

theorem details_eq_ok {b : Block} (hb : b ∈ c.blocks) :
    c.details b.index = .ok (some (c.resolvedBlock b)) := by
  obtain ⟨i, hi⟩ := List.getElem?_of_mem hb
  rw [details, hindexed.get?_eq hi]
  have htxs := mapM_eq_ok fun tx htx =>
    resolveTransaction_eq_ok (hresolves b hb tx htx) b.index
  simp only [htxs]
  rfl

theorem account_eq_ok (address : String) : c.account address =
    .ok (c.blocks.flatMap fun b => (c.resolvedBlock b).entriesFor address) := by
  have hfound : (c.blocks.map fun b => some (c.resolvedBlock b)).filterMap id =
      c.blocks.map c.resolvedBlock := by
    rw [List.filterMap_map, ← List.filterMap_eq_map]
    rfl
  rw [account, mapM_eq_ok fun b hb => details_eq_ok hindexed hresolves hb, Except.map, hfound,
    List.flatMap_map]

/-- The balance of an address adds up what the resolved transactions change. -/
theorem balance_eq_ok (address : String) : c.balance address =
    .ok (Amount.sum ((c.blocks.flatMap Block.transactions).filterMap fun tx =>
      (c.resolved tx).change? address)) := by
  have hentries : ∀ b : Block, ((c.resolvedBlock b).entriesFor address).map AccountEntry.amount =
      b.transactions.filterMap fun tx => (c.resolved tx).change? address := by
    intro b
    rw [Block.entriesFor, resolvedBlock, List.filterMap_map, List.map_filterMap]
    simp only [Function.comp_def, Option.map_map, Option.map_id']
  rw [balance, account_eq_ok hindexed hresolves, Except.map, List.map_flatMap,
    List.filterMap_flatMap]
  simp only [hentries]

end

end Chain

end WorkLedger
