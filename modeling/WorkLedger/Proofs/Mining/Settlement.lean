import WorkLedger.Chain.Queue
import WorkLedger.Proofs.Account.Resolved
import WorkLedger.Proofs.Mining.Found
import WorkLedger.Proofs.Payment.Made
import WorkLedger.Proofs.Unspent.Replay

/-!
# What a mined payment does

A block behind all others puts its outputs at the end of the unspent outputs, because
every output of the chain has a smaller index. A payment spends outputs that are
unspent, so it takes out exactly these, and none of its own block. References to the
new block that were in the chain before do not matter: they found nothing to take out.
-/

namespace WorkLedger

namespace Chain

theorem mem_unspent_empty {c : Chain} (hvalid : c.isValid = true) (hsmall : c.Addressable)
    {address : String} {u : UnspentOutput} (h : u ∈ c.unspent address) : u ∈ c.unspent "" := by
  have hmem := fun a => Placed.mem_replay_iff a (nodup_points hvalid hsmall) c.pairwise_placed u
  rw [unspent_eq_replay, hmem] at h ⊢
  exact ⟨(UnspentOutput.paysTo_iff "" u).mpr (Or.inl rfl), h.2⟩

theorem block_lt_of_mem_unspent {c : Chain} (hindexed : c.Indexed) {address : String}
    {u : UnspentOutput} (h : u ∈ c.unspent address) :
    u.point.block.toNat < c.blocks.length := by
  rw [unspent_eq_replay] at h
  obtain ⟨p, hp, hcreated⟩ := List.mem_flatMap.mp (Placed.mem_flatMap_of_mem_replay h)
  obtain ⟨n, o, _, rfl⟩ := (Placed.mem_created_iff p u).mp hcreated
  have hb := ((c.mem_placed_iff p).mp hp).1
  rw [Placed.point, hindexed _ _ hb]
  exact (List.getElem?_eq_some_iff.mp hb).1

theorem unspent_append (c : Chain) (b : Block) (address : String) :
    Chain.unspent { c with blocks := c.blocks ++ [b] } address =
      b.applyTo address (c.unspent address) := by
  rw [unspent, List.foldl_append]
  rfl

/-- The index after that of the last block is the number of blocks. -/
theorem Indexed.toNat_next {c : Chain} (h : c.Indexed) (hfits : c.Fits) {tail : Block}
    (htail : c.tail? = some tail) : (tail.index + 1).toNat = c.blocks.length := by
  rw [tail?, List.getLast?_eq_getElem?] at htail
  have hlt := (List.getElem?_eq_some_iff.mp htail).1
  have hlast := h _ _ htail
  have hnext : c.blocks.length - 1 + 1 = c.blocks.length := by omega
  rw [UInt64.toNat_add, hlast, UInt64.toNat_one, hnext]
  exact Nat.mod_eq_of_lt hfits

end Chain

/-- Going through a block of a coinbase and a payment, when the new outputs stand
behind the old ones and the payment spends none of them. -/
theorem Block.applyTo_pair {b : Block} {coinbase payment : Transaction}
    (htransactions : b.transactions = [coinbase, payment])
    (hcoinbase : coinbase.isCoinbase = true) (us : List UnspentOutput)
    (hsorted : UnspentOutput.Sorted (us ++ (coinbase.createdFor b.index 0 "" ++
      payment.createdFor b.index 1 "")))
    (hspent : ∀ u ∈ coinbase.createdFor b.index 0 "" ++ payment.createdFor b.index 1 "",
      u.point ∉ payment.spent) :
    b.applyTo "" us = us.filter (fun u => u.point ∉ payment.spent) ++
      (coinbase.createdFor b.index 0 "" ++ payment.createdFor b.index 1 "") := by
  have hrewarded : coinbase.applyTo b.index 0 "" us =
      us ++ coinbase.createdFor b.index 0 "" := by
    rw [← List.append_assoc] at hsorted
    rw [Transaction.applyTo, Transaction.spent, if_pos hcoinbase,
      UnspentOutput.foldl_insert_eq_append (List.pairwise_append.mp hsorted).1]
    rfl
  have hnew := List.filter_eq_self.mpr fun u hu => decide_eq_true (hspent u hu)
  rw [← List.append_assoc] at hsorted
  rw [Block.applyTo, htransactions]
  change payment.applyTo b.index 1 "" (coinbase.applyTo b.index 0 "" us) = _
  rw [hrewarded, Transaction.applyTo, UnspentOutput.foldl_insert_eq_append hsorted,
    UnspentOutput.foldl_erase, List.append_assoc, List.filter_append, hnew]

theorem createdFor_coinbase (index : UInt64) (address : String) :
    (Transaction.coinbase index address).createdFor index 0 "" =
      [⟨⟨index, 0, 0⟩, address, Transaction.reward⟩] := rfl

namespace Payment

/-- The unspent outputs that a payment in a block leaves, behind the coinbase: what
the receiver gets, and the rest for the sender, if there is one. -/
def left (index : UInt64) (sender receiver : String) (amount total : Float) :
    List UnspentOutput :=
  ⟨⟨index, 1, 0⟩, receiver, amount⟩ ::
    if total > amount then [⟨⟨index, 1, 1⟩, sender, total - amount⟩] else []

variable {tx : Transaction} {sender receiver : String} {amount total : Float}

theorem createdFor_of_outs (houts : tx.outs = outputs sender receiver amount total)
    (index : UInt64) : tx.createdFor index 1 "" = left index sender receiver amount total := by
  rw [Transaction.createdFor, houts, outputs, left]
  split <;> rfl

theorem left_of_outs (houts : tx.outs = outputs sender receiver amount total)
    (index : UInt64) : left index sender receiver amount total =
      ⟨⟨index, 1, 0⟩, receiver, amount⟩ ::
        if tx.outs.length = 2 then [⟨⟨index, 1, 1⟩, sender, total - amount⟩] else [] := by
  have hlength : tx.outs.length = 2 ↔ total > amount := by
    rw [houts, outputs]
    split <;> simp [*]
  simp only [left, hlength]

theorem sorted_left (index : UInt64) (sender receiver : String) (amount total : Float) :
    UnspentOutput.Sorted (left index sender receiver amount total) := by
  rw [left]
  split
  · rw [UnspentOutput.Sorted, List.pairwise_pair, OutPoint.key_lt_iff]
    exact Or.inr ⟨rfl, Or.inr ⟨rfl, UInt64.zero_lt_one⟩⟩
  · exact List.pairwise_singleton _ _

theorem place_of_mem_left {index : UInt64} {u : UnspentOutput}
    (h : u ∈ left index sender receiver amount total) :
    u.point.block = index ∧ u.point.tx = 1 := by
  rw [left] at h
  split at h
  · rcases List.mem_pair.mp h with rfl | rfl <;> exact ⟨rfl, rfl⟩
  · rw [List.mem_singleton.mp h]
    exact ⟨rfl, rfl⟩

/-- The outputs of a new block come in order behind those of earlier blocks. -/
theorem sorted_append_left {us : List UnspentOutput} (hsorted : UnspentOutput.Sorted us)
    {index : UInt64} (hearlier : ∀ u ∈ us, u.point.block < index) (address : String) :
    UnspentOutput.Sorted (us ++ ([⟨⟨index, 0, 0⟩, address, Transaction.reward⟩] ++
      left index sender receiver amount total)) := by
  have hbehind : ∀ u ∈ us, ∀ v : UnspentOutput, v.point.block = index →
      u.point.key < v.point.key := by
    intro u hu v hv
    rw [OutPoint.key_lt_iff, hv]
    exact Or.inl (hearlier u hu)
  refine List.pairwise_append.mpr ⟨hsorted, List.pairwise_append.mpr
    ⟨List.pairwise_singleton _ _, sorted_left _ _ _ _ _, ?_⟩, ?_⟩
  · intro u hu v hv
    obtain ⟨hblock, htx⟩ := place_of_mem_left hv
    rw [List.mem_singleton.mp hu, OutPoint.key_lt_iff, hblock, htx]
    exact Or.inr ⟨rfl, Or.inl UInt64.zero_lt_one⟩
  · intro u hu v hv
    rcases List.mem_append.mp hv with hreward | hpaid
    · exact hbehind u hu v (by rw [List.mem_singleton.mp hreward])
    · exact hbehind u hu v (place_of_mem_left hpaid).1

end Payment

namespace Chain

/-- What a new block of a coinbase and a payment does to the unspent outputs, if the
payment spends some of them. -/
theorem unspent_append_pair {c : Chain} (hindexed : c.Indexed) (hfits : c.Fits) {tail b : Block}
    (htail : c.tail? = some tail) (hindex : b.index = tail.index + 1) {address : String}
    {payment : Transaction}
    (htransactions : b.transactions = [.coinbase (tail.index + 1) address, payment])
    {sender receiver : String} {amount total : Float}
    (houts : payment.outs = Payment.outputs sender receiver amount total)
    (hspent : ∀ x ∈ payment.spent, ∃ u ∈ c.unspent "", u.point = x) :
    Chain.unspent { c with blocks := c.blocks ++ [b] } "" =
      (c.unspent "").filter (fun u => u.point ∉ payment.spent) ++
        ⟨⟨tail.index + 1, 0, 0⟩, address, Transaction.reward⟩ ::
          Payment.left (tail.index + 1) sender receiver amount total := by
  have hearlier : ∀ u ∈ c.unspent "", u.point.block < tail.index + 1 := by
    intro u hu
    rw [UInt64.lt_iff_toNat_lt, hindexed.toNat_next hfits htail]
    exact block_lt_of_mem_unspent hindexed hu
  have hsorted : UnspentOutput.Sorted (c.unspent "") := by
    rw [unspent_eq_replay]
    exact Placed.sorted_replay "" c.placed
  have hblock := Block.applyTo_pair htransactions rfl (c.unspent "")
  rw [hindex, createdFor_coinbase, Payment.createdFor_of_outs houts] at hblock
  refine (unspent_append c b "").trans
    (hblock (Payment.sorted_append_left hsorted hearlier address) ?_)
  -- The payment spends outputs of earlier blocks only, so it leaves those of its own.
  intro u hu hmem
  obtain ⟨v, hv, hpoint⟩ := hspent _ hmem
  have hnew : u.point.block = tail.index + 1 := by
    rcases List.mem_cons.mp hu with rfl | hleft
    · rfl
    · exact (Payment.place_of_mem_left hleft).1
  have hlt := hearlier v hv
  rw [hpoint, hnew] at hlt
  exact absurd hlt (UInt64.lt_irrefl _)

theorem candidateTransactions_of_pending {c : Chain} (hpending : c.pending = [])
    {tx : Transaction} (hcoinbase : tx.isCoinbase = false) (index : UInt64) (address : String) :
    (c.enqueue tx).candidateTransactions index address =
      [.coinbase index address, tx.withIdIn index] := by
  simp [candidateTransactions, enqueue, payments, hpending, hcoinbase]

/-- A payment that is made and mined as the only waiting one takes out exactly the
outputs that it spends, which were unspent, and puts in the reward, what the receiver
gets, and what is left over for the sender, if anything is. -/
theorem unspent_of_mined {c : Chain} (hindexed : c.Indexed) (hvalid : c.isValid = true)
    (hsmall : c.Addressable) (hfits : c.Fits) (hpending : c.pending = []) {tail : Block}
    (htail : c.tail? = some tail) {privateKey receiver : String} {amount : Float}
    {tx : Transaction} (hmade : Payment.make c privateKey receiver amount = .ok tx)
    {m : Miner} {now : UInt64} {address : String} {mined : Mined}
    (hmined : m.mine now (tail.index + 1)
      ((c.enqueue tx).candidateTransactions (tail.index + 1) address) tail.hash = some mined) :
    ∃ key us d, KeyPair.ofHex privateKey = .ok key ∧ us <+: c.unspent key.address ∧
      us ⊆ c.unspent "" ∧ tx.ins.map TxIn.point = us.map UnspentOutput.point ∧
      (c.enqueue tx).drained.append mined.block = .ok d ∧
      d.unspent "" = (c.unspent "").filter (fun u => u.point ∉ tx.ins.map TxIn.point) ++
        (⟨⟨tail.index + 1, 0, 0⟩, address, Transaction.reward⟩ ::
          ⟨⟨tail.index + 1, 1, 0⟩, receiver, amount⟩ ::
          if tx.outs.length = 2 then
            [⟨⟨tail.index + 1, 1, 1⟩, key.address,
              (us.map UnspentOutput.amount).foldl (· + ·) 0 - amount⟩]
          else []) := by
  have hyields := Miner.yields_of_mine hmined
  obtain ⟨-, key, hkey, -, -, -, htx⟩ := Payment.make_eq_ok_iff.mp hmade
  have hcoinbase := Payment.isCoinbase_of_make hmade
  have hwaiting := candidateTransactions_of_pending hpending hcoinbase (tail.index + 1) address
  generalize hus : (Payment.select amount (c.unspent key.address)).1 = us at htx
  generalize htotal : (Payment.select amount (c.unspent key.address)).2 = total at htx
  have hfirst : us <+: c.unspent key.address :=
    hus ▸ Payment.selectFrom_isPrefix amount 0 (c.unspent key.address)
  have hsum : total = (us.map UnspentOutput.amount).foldl (· + ·) 0 := by
    rw [← htotal, ← hus]
    exact Payment.selectFrom_total amount 0 (c.unspent key.address)
  have hsubset : us ⊆ c.unspent "" := fun u hu =>
    mem_unspent_empty hvalid hsmall (hfirst.subset hu)
  have hpoints : tx.ins.map TxIn.point = us.map UnspentOutput.point := by
    rw [htx, List.map_map]
    rfl
  have happend := append_of_yields (c := (c.enqueue tx).drained) htail hyields
  refine ⟨key, us, _, hkey, hfirst, hsubset, hpoints, happend, ?_⟩
  have hspent : (tx.withIdIn (tail.index + 1)).spent = us.map UnspentOutput.point := by
    rw [Transaction.spent, Transaction.isCoinbase_withIdIn, hcoinbase, if_neg Bool.false_ne_true]
    exact hpoints
  have houts : tx.outs = Payment.outputs key.address receiver amount total := by rw [htx]
  have hunspent := unspent_append_pair hindexed hfits htail hyields.index
    (hyields.transactions.trans hwaiting) houts fun x hx => by
      rw [hspent] at hx
      obtain ⟨u, hu, hpoint⟩ := List.mem_map.mp hx
      exact ⟨u, hsubset hu, hpoint⟩
  rw [hspent, ← hpoints, Payment.left_of_outs houts, hsum] at hunspent
  exact hunspent

/-- A chain whose last block points ahead, at an output of the next one. -/
def promising : Chain :=
  holding [[.coinbase 1 KeyPair.smallest.address, ⟨"ahead", [.unresolved ⟨2, 1, 1⟩ "s"], []⟩]]

theorem unspent_promising : promising.unspent KeyPair.smallest.address =
    [⟨⟨1, 0, 0⟩, KeyPair.smallest.address, Transaction.reward⟩] := by
  simp only [promising, KeyPair.address_smallest]
  rfl

theorem addressable_promising : promising.Addressable :=
  ⟨by decide, by decide, by decide⟩

theorem unspent_of_mined_promising :
    promising.Indexed ∧ promising.isValid = true ∧ promising.Addressable ∧ promising.Fits ∧
      promising.pending = [] ∧ ∃ tail tx mined, promising.tail? = some tail ∧
        Payment.make promising KeyPair.smallestHex "shop" 20 = .ok tx ∧
        (Miner.create "miner" 0).mine 0 (tail.index + 1)
          ((promising.enqueue tx).candidateTransactions (tail.index + 1) "m") tail.hash =
            some mined ∧
        ∃ d, (promising.enqueue tx).drained.append mined.block = .ok d ∧
          d.unspent "" = [⟨⟨2, 0, 0⟩, "m", Transaction.reward⟩, ⟨⟨2, 1, 0⟩, "shop", 20⟩,
            ⟨⟨2, 1, 1⟩, KeyPair.smallest.address, 0 + Transaction.reward - 20⟩] := by
  have hindexed : promising.Indexed := indexed_holding addressable_promising.blocks
  have hfits : promising.Fits := by
    unfold Fits
    decide
  have hother : Text.equalIgnoringCase "shop" KeyPair.smallest.address = false := by
    rw [KeyPair.address_smallest]
    decide
  have hmade : Payment.make _ _ _ 20 = _ := Payment.make_of_single KeyPair.ofHex_smallestHex
    unspent_promising hother (by decide) (by decide)
  have hmined := fun txs => Miner.mine_of_difficulty_eq_zero "miner" 0 2 txs
    (promising.blocks.getLast (List.cons_ne_nil _ _)).hash
  refine ⟨hindexed, isValid_holding _, addressable_promising, hfits, rfl, _, _, _, rfl, hmade,
    hmined _, ?_⟩
  obtain ⟨key, us, d, hkey, hfirst, -, hpoints, happend, hunspent⟩ :=
    unspent_of_mined hindexed (isValid_holding _) addressable_promising hfits rfl rfl hmade
      (hmined ((promising.enqueue _).candidateTransactions 2 "m"))
  obtain rfl := Except.ok.inj (hkey.symm.trans KeyPair.ofHex_smallestHex)
  rw [unspent_promising] at hfirst
  have hlength := congrArg List.length hpoints
  rw [List.length_map, List.length_map] at hlength
  obtain rfl := hfirst.eq_of_length hlength.symm
  refine ⟨d, happend, hunspent.trans ?_⟩
  rfl

end Chain

end WorkLedger
