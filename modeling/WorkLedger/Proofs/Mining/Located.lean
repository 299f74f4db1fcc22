import WorkLedger.Proofs.Account.Find
import WorkLedger.Proofs.Mining.Provenance

/-!
# Mined transactions and where they are found

On a workbench without blocks of others, every payment points at a block before the one that it is
mined in, and the coinbase points at its own. So the texts behind the ids of a block differ exactly
if those of its payments do, and then each transaction of the chain is found where it stands
(`located_run`).

Two payments that are submitted between two blocks are made for the same chain. If somebody submits
the same payment twice, both are mined, in the same block and with the same id, and a search ends at
the first one (`not_located_run`).
-/

namespace WorkLedger

/-- Whether a task brings no blocks of others. -/
def Task.isLocal : Task → Bool
  | .extend _ _ => false
  | .replace _ => false
  | _ => true

namespace Transaction

/-- A transaction has inputs, and the first of them points at a block before an index. -/
def PointsBack (tx : Transaction) (n : ℕ) : Prop :=
  ∃ i is, tx.ins = i :: is ∧ i.point.block.toNat < n

variable {tx : Transaction}

theorem PointsBack.mono {m n : ℕ} (h : tx.PointsBack m) (hmn : m ≤ n) : tx.PointsBack n := by
  obtain ⟨i, is, hins, hlt⟩ := h
  exact ⟨i, is, hins, lt_of_lt_of_le hlt hmn⟩

theorem PointsBack.idChars_ne {index : UInt64} (h : tx.PointsBack index.toNat) (address : String) :
    (coinbase index address).idChars index ≠ tx.idChars index := by
  obtain ⟨i, is, hins, hlt⟩ := h
  intro hchars
  have hpoint : ⟨index, 0, 0⟩ = i.point := point_eq_of_idChars hchars rfl hins
  rw [← hpoint] at hlt
  exact lt_irrefl _ hlt

/-- A transaction spends the same points as another one and pays the same. -/
def Repeats (tx ux : Transaction) : Prop :=
  tx.ins.map TxIn.point = ux.ins.map TxIn.point ∧
    tx.outs.map TxOut.content = ux.outs.map TxOut.content

/-- In a batch whose payments point back, the texts behind the ids differ if those of the payments
do. -/
theorem IsBatch.pairwise_iff {index : UInt64} {txs : List Transaction} (h : IsBatch index txs)
    (hback : ∀ x ∈ Chain.payments txs, x.PointsBack index.toNat) :
    (txs.Pairwise fun x y => x.idChars index ≠ y.idChars index) ↔
      (Chain.payments txs).Pairwise fun x y => x.idChars index ≠ y.idChars index := by
  obtain ⟨address, htxs⟩ := h.coinbase
  generalize Chain.payments txs = ps at htxs hback ⊢
  rw [htxs, List.pairwise_cons]
  exact and_iff_right fun x hx => (hback x hx).idChars_ne address

end Transaction

namespace Workbench

variable {w : Workbench}

/-- A homegrown workbench has no blocks but the first one and those that were mined at it, its
payments point back, and it is tidy. -/
structure Homegrown (w : Workbench) : Prop where
  sound : w.chain.Sound
  tidy : w.Tidy
  blocks : w.chain.blocks = Block.genesis :: w.mined
  waitingBack : ∀ tx ∈ w.waiting, tx.PointsBack w.chain.blocks.length
  minedBack : ∀ b ∈ w.mined, ∀ tx ∈ Chain.payments b.transactions, tx.PointsBack b.index.toNat

theorem homegrown_start : start.Homegrown where
  sound := Chain.sound_start
  tidy := tidy_start
  blocks := rfl
  waitingBack := fun _ h => absurd h List.not_mem_nil
  minedBack := fun _ h => absurd h List.not_mem_nil

theorem Homegrown.indexed (h : w.Homegrown) (hfits : w.chain.Fits) : w.chain.Indexed :=
  fun _ _ hb => h.sound.toNat_index hfits hb

theorem blocks_abandoned (w : Workbench) : w.abandoned.chain.blocks = w.chain.blocks := by
  rcases w.abandoned_cases with hsame | ⟨k, _, hgiven⟩
  · rw [hsame]
  · rw [hgiven]
    rfl

theorem Homegrown.abandoned (h : w.Homegrown) : w.abandoned.Homegrown := by
  rcases w.abandoned_cases with hsame | ⟨k, hcandidate, hgiven⟩
  · rw [hsame]
    exact h
  · have hwaiting := h.waitingBack
    have htidy := h.tidy.abandoned
    rw [hgiven] at htidy ⊢
    refine ⟨h.sound.of_blocks_eq rfl, htidy, h.blocks, ?_, h.minedBack⟩
    simp only [waiting, underway, hcandidate] at hwaiting ⊢
    exact hwaiting

/-- A payment points back from the end of the chain that it was made for. -/
theorem pointsBack_of_make {c : Chain} (hindexed : c.Indexed) {privateKey receiver : String}
    {amount : Float} {tx : Transaction} (h : Payment.make c privateKey receiver amount = .ok tx) :
    tx.PointsBack c.blocks.length := by
  obtain ⟨i, is, hins⟩ := List.exists_cons_of_ne_nil (Payment.ins_ne_nil_of_make h)
  obtain ⟨key, _, u, hu, hpoint⟩ :=
    Payment.exists_unspent_of_make h (hins ▸ List.mem_cons_self : i ∈ tx.ins)
  refine ⟨i, is, hins, ?_⟩
  rw [← hpoint]
  exact Chain.block_lt_of_mem_unspent hindexed hu

/-- Tasks without blocks of others keep a workbench homegrown. -/
theorem Homegrown.step (h : w.Homegrown) (hfits : w.chain.Fits) {t : Task}
    (hlocal : t.isLocal = true) : (w.step t).Homegrown := by
  have htidy := h.tidy.step t
  cases t with
  | submit privateKey receiver amount =>
      rcases w.step_submit privateKey receiver amount with hsame | ⟨tx, hmade, hqueued⟩
      · rw [hsame]
        exact h
      · rw [hqueued] at htidy ⊢
        refine ⟨h.sound.of_blocks_eq rfl, htidy, h.blocks, ?_, h.minedBack⟩
        have hnew := pointsBack_of_make (h.indexed hfits) hmade
        have hall := List.forall_mem_append.mpr ⟨h.waitingBack, List.forall_mem_singleton.mpr hnew⟩
        rw [waiting, List.append_assoc] at hall
        exact hall
  | prepare address =>
      rcases w.step_prepare address with hsame | ⟨tail, hnone, _, htaken⟩
      · rw [hsame]
        exact h
      · rw [htaken] at htidy ⊢
        refine ⟨h.sound.of_blocks_eq rfl, htidy, h.blocks, ?_, h.minedBack⟩
        have hpending := (List.forall_mem_append.mp h.waitingBack).2
        rw [waiting, underway, Chain.drained, List.append_nil, Option.map_some, Option.getD_some,
          Chain.payments_candidateTransactions, Chain.payments_of_isCoinbase h.tidy.pending,
          List.forall_mem_map]
        exact hpending
  | finish miner now =>
      rcases w.step_finish miner now with
        habandoned | ⟨k, b, hcandidate, hyields, happend, hfinished⟩
      · rw [habandoned]
        exact h.abandoned
      · have hsound := h.sound.append happend
        have hindex : b.index.toNat = w.chain.blocks.length := by
          rw [hsound.index_eq List.getElem?_concat_length, UInt64.toNat_ofNat_of_lt' hfits]
        have hwaiting := List.forall_mem_append.mp h.waitingBack
        simp only [underway, hcandidate, Option.map_some, Option.getD_some,
          ← hyields.transactions, ← hindex] at hwaiting
        rw [hfinished] at htidy ⊢
        refine ⟨hsound, htidy, ?_, ?_, ?_⟩
        · rw [h.blocks, List.cons_append]
        · intro tx htx
          refine (hwaiting.2 tx htx).mono ?_
          rw [hindex]
          exact (List.prefix_append _ _).length_le
        · exact List.forall_mem_append.mpr ⟨h.minedBack, List.forall_mem_singleton.mpr hwaiting.1⟩
  | abandon => exact h.abandoned
  | extend policy blocks => cases hlocal
  | replace r => cases hlocal

theorem isPrefix_step {t : Task} (hlocal : t.isLocal = true) :
    w.chain.blocks <+: (w.step t).chain.blocks := by
  cases t with
  | submit privateKey receiver amount =>
      rcases w.step_submit privateKey receiver amount with hsame | ⟨tx, _, hqueued⟩
      · simp only [hsame, List.prefix_refl]
      · simp only [hqueued, Chain.blocks_enqueue, List.prefix_refl]
  | prepare address =>
      rcases w.step_prepare address with hsame | ⟨tail, _, _, htaken⟩
      · simp only [hsame, List.prefix_refl]
      · simp only [htaken, Chain.blocks_drained, List.prefix_refl]
  | finish miner now =>
      rcases w.step_finish miner now with habandoned | ⟨k, b, _, _, _, hfinished⟩
      · simp only [habandoned, blocks_abandoned, List.prefix_refl]
      · simp only [hfinished, List.prefix_append]
  | abandon => simp only [step, blocks_abandoned, List.prefix_refl]
  | extend policy blocks => cases hlocal
  | replace r => cases hlocal

theorem isPrefix_run {tasks : List Task} (hlocal : ∀ t ∈ tasks, t.isLocal = true) :
    w.chain.blocks <+: (w.run tasks).chain.blocks := by
  induction tasks generalizing w with
  | nil => exact List.prefix_rfl
  | cons t rest ih =>
      obtain ⟨ht, hrest⟩ := List.forall_mem_cons.mp hlocal
      exact (isPrefix_step ht).trans (ih hrest)

theorem Homegrown.run (h : w.Homegrown) {tasks : List Task}
    (hlocal : ∀ t ∈ tasks, t.isLocal = true) (hfits : (w.run tasks).chain.Fits) :
    (w.run tasks).Homegrown := by
  induction tasks generalizing w with
  | nil => exact h
  | cons t rest ih =>
      have hnow : w.chain.Fits := lt_of_le_of_lt (isPrefix_run hlocal).length_le hfits
      obtain ⟨ht, hrest⟩ := List.forall_mem_cons.mp hlocal
      exact ih (h.step hnow ht) hrest hfits

section

variable (h : w.Homegrown)

include h

theorem Homegrown.forall_mem_blocks {p : Block → Prop} :
    (∀ b ∈ w.chain.blocks, p b) ↔ p Block.genesis ∧ ∀ b ∈ w.mined, p b := by
  rw [h.blocks, List.forall_mem_cons]

theorem Homegrown.identified : w.chain.Identified :=
  h.forall_mem_blocks.mpr
    ⟨fun _ htx => absurd htx List.not_mem_nil, fun b hb => (h.tidy.mined b hb).id⟩

/-- Transactions are found where they stand if the texts of the payments in each block differ. -/
theorem Homegrown.located_iff (hfits : w.chain.Fits) (hfree : w.chain.IdsFree) :
    w.chain.Located ↔ ∀ b ∈ w.mined, (Chain.payments b.transactions).Pairwise
      fun x y => x.idChars b.index ≠ y.idChars b.index := by
  have hgenesis : Block.genesis.transactions.Pairwise fun x y =>
      x.idChars Block.genesis.index ≠ y.idChars Block.genesis.index := List.Pairwise.nil
  rw [Chain.located_iff_pairwise h.identified hfree (h.indexed hfits), h.forall_mem_blocks,
    and_iff_right hgenesis]
  exact forall₂_congr fun b hb => (h.tidy.mined b hb).pairwise_iff (h.minedBack b hb)

/-- What is true of the effect of every submitted payment is true of all payments. -/
theorem Homegrown.forall_flow {p : List TxIn × List TxOut → Prop}
    (hp : ∀ tx ∈ w.submitted, p tx.effect) : ∀ tx ∈ w.flow, p tx.effect := by
  rw [← List.forall_mem_map] at hp ⊢
  rw [h.tidy.conserved]
  exact hp

theorem Homegrown.pairwise_flow {r : List TxIn × List TxOut → List TxIn × List TxOut → Prop}
    (hr : w.submitted.Pairwise fun x y => r x.effect y.effect) :
    w.flow.Pairwise fun x y => r x.effect y.effect := by
  rw [← List.pairwise_map] at hr ⊢
  rw [h.tidy.conserved]
  exact hr

end

theorem payments_sublist_flow {b : Block} (hb : b ∈ w.mined) :
    (Chain.payments b.transactions).Sublist w.flow := by
  have hall : b.transactions.Sublist (w.mined.flatMap Block.transactions) :=
    List.sublist_flatten_of_mem (List.mem_map_of_mem hb)
  exact (hall.filter _).trans
    ((List.sublist_append_left _ _).trans (List.sublist_append_left _ _))

/-- If no two of the submitted payments have the same text, every transaction is found where it
stands. -/
theorem Homegrown.located_of_submitted (h : w.Homegrown) (hfits : w.chain.Fits)
    (hfree : w.chain.IdsFree)
    (hsubmitted : w.submitted.Pairwise fun x y => x.idChars 0 ≠ y.idChars 0) : w.chain.Located := by
  rw [h.located_iff hfits hfree]
  intro b hb
  have hflow := h.pairwise_flow
    (r := fun e f => Transaction.idChars ⟨"", e.1, e.2⟩ 0 ≠ Transaction.idChars ⟨"", f.1, f.2⟩ 0)
    hsubmitted
  apply (hflow.sublist (payments_sublist_flow hb)).imp
  intro x y hdiffers hsame
  apply hdiffers
  have hparts := (Transaction.eq_of_idChars hsame).2
  change x.idChars 0 = y.idChars 0
  rw [Transaction.idChars_eq_append, Transaction.idChars_eq_append, hparts]

/-- With plain addresses, every transaction is found where it stands exactly if no block repeats a
payment. -/
theorem Homegrown.located_iff_of_plain (h : w.Homegrown) (hfits : w.chain.Fits)
    (hfree : w.chain.IdsFree) (hplain : ∀ tx ∈ w.submitted, tx.HasPlainAddresses) :
    w.chain.Located ↔
      ∀ b ∈ w.mined, (Chain.payments b.transactions).Pairwise fun x y => ¬ x.Repeats y := by
  rw [h.located_iff hfits hfree]
  have hflow := h.forall_flow (p := fun e => ∀ o ∈ e.2, IsPlainAddress o.address) hplain
  refine forall₂_congr fun b hb => List.Pairwise.iff_of_mem fun hx hy => not_congr ?_
  have hsubset := (payments_sublist_flow hb).subset
  rw [Transaction.idChars_eq_iff (hflow _ (hsubset hx)) (hflow _ (hsubset hy)),
    and_iff_right rfl]
  rfl

/-- On a workbench without blocks of others, a transaction is found in its block, at the first place
where the text behind its id occurs. So every transaction is found where it stands exactly if these
texts differ for the payments in each block, or, with plain addresses, exactly if no block repeats a
payment. It is enough that no two submitted payments have the same text. -/
theorem located_run {tasks : List Task} (hlocal : ∀ t ∈ tasks, t.isLocal = true)
    (hfits : (start.run tasks).chain.Fits) (hfree : (start.run tasks).chain.IdsFree) :
    (∀ b ∈ (start.run tasks).chain.blocks, ∀ tx ∈ b.transactions,
      (start.run tasks).chain.find? tx.id = some (b.index,
        (b.transactions.map fun ux => ux.idChars b.index).idxOf (tx.idChars b.index))) ∧
    ((start.run tasks).chain.Located ↔ ∀ b ∈ (start.run tasks).mined,
      (Chain.payments b.transactions).Pairwise fun x y => x.idChars b.index ≠ y.idChars b.index) ∧
    ((∀ tx ∈ (start.run tasks).submitted, tx.HasPlainAddresses) →
      ((start.run tasks).chain.Located ↔ ∀ b ∈ (start.run tasks).mined,
        (Chain.payments b.transactions).Pairwise fun x y => ¬ x.Repeats y)) ∧
    (((start.run tasks).submitted.Pairwise fun x y => x.idChars 0 ≠ y.idChars 0) →
      (start.run tasks).chain.Located) := by
  have h := homegrown_start.run hlocal hfits
  exact ⟨fun b hb tx htx => Chain.find?_id_eq_some h.identified hfree (h.indexed hfits) hb htx,
    h.located_iff hfits hfree, h.located_iff_of_plain hfits hfree,
    h.located_of_submitted hfits hfree⟩

/-- The payment of the reward to a receiver. -/
def rewardTo (receiver : String) : Transaction :=
  ⟨"", [Payment.signedInput .smallest ⟨⟨1, 0, 0⟩, KeyPair.smallest.address, Transaction.reward⟩],
    Payment.outputs KeyPair.smallest.address receiver Transaction.reward (0 + Transaction.reward)⟩

/-- The reward is mined, and paid to some receivers at once. Then the payments are mined. -/
def crowded (receivers : List String) : List Task :=
  .prepare KeyPair.smallest.address :: .finish (Miner.create "miner" 0) 0 ::
    (receivers.map (.submit KeyPair.smallestHex · Transaction.reward) ++
      [.prepare "m", .finish (Miner.create "m" 0) 0])

/-- The workbench on which the payments wait. -/
def queued (receivers : List String) : Workbench :=
  ⟨⟨[Block.genesis, rewardBlock], receivers.map rewardTo⟩, none, receivers.map rewardTo,
    [rewardBlock]⟩

/-- The block with the payments. -/
def crowdedBlock (receivers : List String) : Block :=
  Block.unmined 2 rewardBlock.hash 0 ((queued receivers).chain.candidateTransactions 2 "m") 0 "m"

theorem run_submit {receivers : List String} (hothers : ∀ receiver ∈ receivers,
      Text.equalIgnoringCase receiver KeyPair.smallest.address = false) :
    rewarded.run (receivers.map (.submit KeyPair.smallestHex · Transaction.reward)) =
      queued receivers := by
  induction receivers using List.reverseRecOn with
  | nil => rfl
  | append_singleton receivers receiver ih =>
      obtain ⟨hbefore, hother⟩ := List.forall_mem_append.mp hothers
      have hmade : Payment.make (queued receivers).chain KeyPair.smallestHex receiver
          Transaction.reward = .ok (rewardTo receiver) :=
        Payment.make_of_single KeyPair.ofHex_smallestHex unspent_rewarded
          (hother receiver (List.mem_singleton_self receiver)) (by decide) (by decide)
      rw [List.map_append, run_append, ih hbefore, List.map_singleton, run_cons,
        step_submit_of_ok hmade, queued, queued, List.map_append]
      rfl

theorem run_crowded {receivers : List String} (hothers : ∀ receiver ∈ receivers,
      Text.equalIgnoringCase receiver KeyPair.smallest.address = false) :
    start.run (crowded receivers) =
      ⟨⟨[Block.genesis, rewardBlock, crowdedBlock receivers], []⟩, none, receivers.map rewardTo,
        [rewardBlock, crowdedBlock receivers]⟩ := by
  have htail : (queued receivers).chain.tail? = some rewardBlock := rfl
  rw [crowded, run_cons, run_cons, step_rewarded, run_append, run_submit hothers, run_cons,
    run_cons, step_prepare_finish rfl htail _ _ _ rfl]
  rfl

theorem transactions_crowdedBlock (receivers : List String) :
    (crowdedBlock receivers).transactions =
      .coinbase 2 "m" :: receivers.map fun receiver => (rewardTo receiver).withIdIn 2 := by
  have hpayments : ∀ tx ∈ receivers.map rewardTo, tx.isCoinbase = false := by
    rw [List.forall_mem_map]
    intro receiver _
    exact Transaction.isCoinbase_of_signed
      (List.forall_mem_singleton.mpr (Payment.isEmpty_signature _ _))
  change Transaction.coinbase 2 "m" ::
    (Chain.payments (receivers.map rewardTo)).map (fun tx => tx.withIdIn 2) = _
  rw [Chain.payments_of_isCoinbase hpayments, List.map_map]
  rfl

/-- The texts behind the ids in the two mined blocks. -/
def crowdedTexts (receivers : List String) : List (List Char) :=
  (Transaction.coinbase 1 KeyPair.smallest.address).idChars 1 ::
    (Transaction.coinbase 2 "m").idChars 2 ::
      receivers.map fun receiver => (rewardTo receiver).idChars 2

theorem nodup_crowdedTexts : ((crowdedTexts ["shop", "bank"]).map fun text =>
    Sha256.hexOfText (String.ofList text)).Nodup := by
  rw [crowdedTexts, KeyPair.address_smallest]
  decide +kernel

theorem isLocal_crowded (receivers : List String) :
    ∀ t ∈ crowded receivers, t.isLocal = true := by
  simp only [crowded, List.forall_mem_cons, List.forall_mem_append, List.forall_mem_map]
  exact ⟨rfl, rfl, fun _ _ => rfl, rfl, rfl, fun _ h => absurd h List.not_mem_nil⟩

section

variable {receivers : List String} (hreceivers : receivers ⊆ ["shop", "bank"])

include hreceivers

theorem run_crowded_shops : start.run (crowded receivers) =
    ⟨⟨[Block.genesis, rewardBlock, crowdedBlock receivers], []⟩, none, receivers.map rewardTo,
      [rewardBlock, crowdedBlock receivers]⟩ := by
  have hothers : ∀ receiver ∈ ["shop", "bank"],
      Text.equalIgnoringCase receiver KeyPair.smallest.address = false := by
    rw [KeyPair.address_smallest]
    decide
  exact run_crowded fun receiver h => hothers receiver (hreceivers h)

theorem fits_crowded : (start.run (crowded receivers)).chain.Fits := by
  rw [run_crowded_shops hreceivers]
  exact (by decide : 3 < UInt64.size)

theorem idsFree_crowded : (start.run (crowded receivers)).chain.IdsFree := by
  apply Chain.idsFree_of_nodup (crowdedTexts ["shop", "bank"]) _ nodup_crowdedTexts
  rw [run_crowded_shops hreceivers]
  simp only [List.forall_mem_cons, transactions_crowdedBlock, List.forall_mem_map]
  refine ⟨fun _ htx => absurd htx List.not_mem_nil, ?_, ?_, fun _ hb => absurd hb List.not_mem_nil⟩
  · intro tx htx
    rw [List.mem_singleton.mp htx]
    exact List.mem_cons_self
  · refine ⟨List.mem_cons_of_mem _ List.mem_cons_self, fun receiver h => ?_⟩
    exact List.mem_cons_of_mem _ (List.mem_cons_of_mem _ (List.mem_map_of_mem (hreceivers h)))

end

/-- The reward is paid to two receivers at once. Both payments point at it and are found. -/
theorem located_run_crowded :
    (∀ t ∈ crowded ["shop", "bank"], t.isLocal = true) ∧
      (start.run (crowded ["shop", "bank"])).chain.Fits ∧
      (start.run (crowded ["shop", "bank"])).chain.IdsFree ∧
      (∀ tx ∈ (start.run (crowded ["shop", "bank"])).submitted, tx.HasPlainAddresses) ∧
      (start.run (crowded ["shop", "bank"])).chain.Located := by
  have hlocal := isLocal_crowded ["shop", "bank"]
  have hfits := fits_crowded (List.Subset.refl ["shop", "bank"])
  have hfree := idsFree_crowded (List.Subset.refl ["shop", "bank"])
  have hsubmitted : (start.run (crowded ["shop", "bank"])).submitted =
      [rewardTo "shop", rewardTo "bank"] := by
    rw [run_crowded_shops (List.Subset.refl ["shop", "bank"])]
    rfl
  refine ⟨hlocal, hfits, hfree, ?_, ?_⟩
  · have houts : ∀ receiver, (rewardTo receiver).outs = [⟨receiver, Transaction.reward⟩] :=
      fun _ => rfl
    rw [hsubmitted]
    simp only [List.forall_mem_cons, Transaction.HasPlainAddresses, houts]
    exact ⟨⟨⟨by decide, by decide⟩, nofun⟩, ⟨⟨by decide, by decide⟩, nofun⟩, nofun⟩
  · refine (located_run hlocal hfits hfree).2.2.2 ?_
    rw [hsubmitted, List.pairwise_pair]
    decide

/-- The reward is paid to the same receiver twice. Then one of the payments is not found where it
stands. -/
theorem not_located_run : ¬ ∀ tasks : List Task, (∀ t ∈ tasks, t.isLocal = true) →
    (start.run tasks).chain.Fits → (start.run tasks).chain.IdsFree →
      (start.run tasks).chain.Located := by
  intro hall
  have hreceivers : ["shop", "shop"] ⊆ ["shop", "bank"] := by decide
  have hlocated := hall (crowded ["shop", "shop"]) (isLocal_crowded _) (fits_crowded hreceivers)
    (idsFree_crowded hreceivers)
  rw [run_crowded_shops hreceivers] at hlocated
  have hnodup := hlocated.nodup (crowdedBlock ["shop", "shop"])
    (List.mem_cons_of_mem _ (List.mem_cons_of_mem _ List.mem_cons_self))
  rw [transactions_crowdedBlock] at hnodup
  exact (List.nodup_cons.mp (List.nodup_cons.mp hnodup).2).1 List.mem_cons_self

end Workbench

end WorkLedger
