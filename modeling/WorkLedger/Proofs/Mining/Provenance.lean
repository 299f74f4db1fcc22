import WorkLedger.Proofs.Account.Answers
import WorkLedger.Proofs.Mining.Settlement
import WorkLedger.Proofs.Mining.Workbench

/-!
# Where the inputs of mined blocks point

A payment points at outputs that are in the chain when it is made. Mining adds
outputs, and a coinbase points at its own output, so blocks that are mined on the
chain for which their payments were made point at outputs of that chain. Then every
question about the chain is answered.

A replacement can take the outputs away that a waiting payment points at. The payment
still gets into the next candidate, the chain takes the block, and from then on it
does not answer any more (`not_answers_run`). It does as long as every replacement
leaves the outputs in place that waiting payments point at (`answers_run`).
-/

namespace WorkLedger

namespace Chain

/-- All inputs of some transactions point at outputs of a chain. -/
def Covers (c : Chain) (txs : List Transaction) : Prop :=
  ∀ tx ∈ txs, ∀ i ∈ tx.ins, (c.output? i.point).isSome = true

theorem covers_append {c : Chain} {txs more : List Transaction} :
    c.Covers (txs ++ more) ↔ c.Covers txs ∧ c.Covers more := by
  simp only [Covers, List.forall_mem_append]

theorem resolves_iff {c : Chain} : c.Resolves ↔ ∀ b ∈ c.blocks, c.Covers b.transactions :=
  Iff.rfl

/-- Whether inputs point at outputs does not depend on the ids of the transactions. -/
theorem covers_of_effect {c : Chain} {txs more : List Transaction}
    (h : txs.map Transaction.effect = more.map Transaction.effect) (hmore : c.Covers more) :
    c.Covers txs := by
  intro tx htx
  obtain ⟨other, hother, heffect⟩ := List.mem_map.mp (h ▸ List.mem_map_of_mem htx)
  have hins : other.ins = tx.ins := congrArg Prod.fst heffect
  rw [← hins]
  exact hmore other hother

/-- Blocks on top of a chain take none of its outputs away. -/
theorem isSome_output?_of_isPrefix {c d : Chain} (hblocks : c.blocks <+: d.blocks) {x : OutPoint}
    (h : (c.output? x).isSome = true) : (d.output? x).isSome = true := by
  obtain ⟨o, ho⟩ := Option.isSome_iff_exists.mp h
  obtain ⟨b, hb, htx⟩ := Option.bind_eq_some_iff.mp ho
  have hget : d.get? x.block = some b := by
    obtain ⟨hposition, hindex⟩ := Option.filter_eq_some_iff.mp hb
    obtain ⟨more, hmore⟩ := hblocks
    have hlt := (List.getElem?_eq_some_iff.mp hposition).1
    rw [get?, ← hmore, List.getElem?_append_left hlt]
    exact hb
  rw [output?, hget, Option.bind_some, htx]
  rfl

theorem Covers.of_isPrefix {c d : Chain} (hblocks : c.blocks <+: d.blocks)
    {txs : List Transaction} (h : c.Covers txs) : d.Covers txs :=
  fun tx htx i hi => isSome_output?_of_isPrefix hblocks (h tx htx i hi)

/-- A payment points at outputs of the chain that it was made for. -/
theorem covers_of_make {c : Chain} (hindexed : c.Indexed) (hsmall : c.Addressable)
    {privateKey receiver : String} {amount : Float} {tx : Transaction}
    (h : Payment.make c privateKey receiver amount = .ok tx) : c.Covers [tx] := by
  intro x hx i hi
  rw [List.mem_singleton.mp hx] at hi
  obtain ⟨key, _, u, hu, hpoint⟩ := Payment.exists_unspent_of_make h hi
  rw [unspent_eq_replay] at hu
  obtain ⟨p, hp, hcreated⟩ := List.mem_flatMap.mp (Placed.mem_flatMap_of_mem_replay hu)
  rw [← hpoint, output?_eq_of_creates hindexed hsmall hp ((Placed.mem_created_iff p u).mp hcreated)]
  rfl

/-- A new block that stands in place has the output that its coinbase points at. -/
theorem isSome_output?_coinbase {c : Chain} {b : Block} {address : String}
    {rest : List Transaction} (hindex : b.index.toNat = c.blocks.length)
    (htransactions : b.transactions = .coinbase b.index address :: rest) :
    (output? { c with blocks := c.blocks ++ [b] } ⟨b.index, 0, 0⟩).isSome = true := by
  have hget : get? { c with blocks := c.blocks ++ [b] } b.index = some b := by
    rw [get?, hindex, List.getElem?_concat_length]
    simp
  rw [output?, hget, Option.bind_some, htransactions]
  rfl

/-- A block of a coinbase and of payments that point at outputs of the chain goes on
top of it. -/
theorem Resolves.append {c : Chain} (h : c.Resolves) {b : Block} {address : String}
    {rest : List Transaction} (hindex : b.index.toNat = c.blocks.length)
    (htransactions : b.transactions = .coinbase b.index address :: rest)
    (hrest : c.Covers rest) : Resolves { c with blocks := c.blocks ++ [b] } := by
  have hblocks := List.prefix_append c.blocks [b]
  rw [resolves_iff]
  intro x hx
  rcases List.mem_append.mp hx with hold | hnew
  · exact Covers.of_isPrefix hblocks (h x hold)
  · rw [List.mem_singleton.mp hnew, htransactions]
    intro tx htx i hi
    rcases List.mem_cons.mp htx with rfl | hpayment
    · rw [List.mem_singleton.mp hi]
      exact isSome_output?_coinbase hindex htransactions
    · exact isSome_output?_of_isPrefix hblocks (hrest tx hpayment i hi)

/-- An empty block takes the place of what stands behind a block. -/
theorem replace_onTop {c : Chain} {start : UInt64} {previous : Block} {bs : List Block}
    (hkept : (Replacement.kept c start).blocks = bs ++ [previous])
    (hvalid : Block.isSequence (bs ++ [previous]) = true) (timestamp : UInt64) :
    c.replace (.splice start [previous.onTop timestamp]) =
      ⟨{ c with blocks := bs ++ [previous, previous.onTop timestamp] }, .ok 1⟩ := by
  refine (Replacement.applySplice_of_isChain ?_ ?_).trans ?_
  · intro b hb
    rw [List.mem_singleton.mp hb]
    exact Block.isGenuine_onTop _ _
  · rw [hkept]
    apply ((Block.isSequence_iff_isChain _).mp hvalid).append (List.isChain_singleton _)
    intro tail htail next hnext
    obtain rfl : previous = tail := by simpa using htail
    obtain rfl : previous.onTop timestamp = next := by simpa using hnext
    exact Block.follows_onTop _ _
  · rw [hkept, List.append_assoc]
    rfl

end Chain

/-- Whether the blocks of others that a task brings are good: a peer's blocks leave no
input without its output, and neither does a replacement, all of whose blocks are
taken. -/
def Task.IsHonest (w : Workbench) : Task → Prop
  | .extend policy blocks => (w.step (.extend policy blocks)).chain.Resolves
  | .replace r => r.IsAnchored ∧ (w.chain.replace r).result = .ok r.blocks.length ∧
      (w.chain.replace r).chain.Resolves
  | _ => True

namespace Workbench

/-- Before each of the tasks, a property holds of the workbench and the task. -/
def Along (p : Workbench → Task → Prop) (w : Workbench) : List Task → Prop
  | [] => True
  | t :: rest => p w t ∧ (w.step t).Along p rest

theorem along_append {p : Workbench → Task → Prop} {w : Workbench} {tasks more : List Task} :
    w.Along p (tasks ++ more) ↔ w.Along p tasks ∧ (w.run tasks).Along p more := by
  induction tasks generalizing w with
  | nil => simp [Along, run]
  | cons t rest ih => rw [List.cons_append, Along, Along, ih, and_assoc, run_cons]

/-- The payments that are not in a mined block yet. -/
def waiting (w : Workbench) : List Transaction := w.underway ++ w.chain.pending

/-- Whether a task, if it replaces blocks, leaves the outputs in place that waiting
payments point at. -/
def Spares (w : Workbench) : Task → Prop
  | .replace r => (w.chain.replace r).chain.Covers w.waiting
  | _ => True

/-- The positions in a chain are words. -/
def HasRoom (w : Workbench) : Prop := w.chain.Addressable ∧ w.chain.Fits

theorem hasRoom_iff {w : Workbench} : w.HasRoom ↔ w.chain.blocks.length < UInt64.size ∧
    ∀ b ∈ w.chain.blocks, b.transactions.length ≤ UInt64.size ∧
      ∀ tx ∈ b.transactions, tx.outs.length ≤ UInt64.size := by
  constructor
  · intro h
    exact ⟨h.2, fun b hb => ⟨h.1.transactions b hb, h.1.outs b hb⟩⟩
  · intro h
    exact ⟨⟨h.1.le, fun b hb => (h.2 b hb).1, fun b hb => (h.2 b hb).2⟩, h.1⟩

instance (w : Workbench) : Decidable w.HasRoom := decidable_of_iff _ hasRoom_iff.symm

/-- On a secure workbench no input is without its output, in the chain or waiting. -/
structure Secure (w : Workbench) : Prop where
  sound : w.chain.Sound
  tidy : w.Tidy
  resolves : w.chain.Resolves
  covers : w.chain.Covers w.waiting

theorem secure_start : start.Secure where
  sound := Chain.sound_start
  tidy := tidy_start
  resolves := by
    intro b hb
    obtain rfl := List.mem_singleton.mp hb
    exact fun _ h => absurd h List.not_mem_nil
  covers := fun _ h => absurd h List.not_mem_nil

variable {w : Workbench}

theorem Secure.abandoned (h : w.Secure) : w.abandoned.Secure := by
  rcases w.abandoned_cases with hsame | ⟨k, hcandidate, hgiven⟩
  · rw [hsame]
    exact h
  · have hcovers := h.covers
    have htidy := h.tidy.abandoned
    rw [hgiven] at htidy ⊢
    refine ⟨h.sound.of_blocks_eq rfl, htidy, h.resolves, ?_⟩
    simp only [waiting, underway, hcandidate] at hcovers ⊢
    exact hcovers

/-- Tasks keep a workbench secure, if blocks of others are honest and spare what the
waiting payments point at. -/
theorem Secure.step (h : w.Secure) (hroom : w.HasRoom) {t : Task} (hhonest : t.IsHonest w)
    (hspares : w.Spares t) : (w.step t).Secure := by
  have htidy := h.tidy.step t
  have hindexed : w.chain.Indexed := fun i b hb => h.sound.toNat_index hroom.2 hb
  cases t with
  | submit privateKey receiver amount =>
      rcases w.step_submit privateKey receiver amount with hsame | ⟨tx, hmade, hqueued⟩
      · rw [hsame]
        exact h
      · rw [hqueued] at htidy ⊢
        refine ⟨h.sound.of_blocks_eq rfl, htidy, h.resolves, ?_⟩
        have hnew := Chain.covers_of_make hindexed hroom.1 hmade
        have hall := Chain.covers_append.mpr ⟨h.covers, hnew⟩
        rw [waiting, List.append_assoc] at hall
        exact hall
  | prepare address =>
      rcases w.step_prepare address with hsame | ⟨tail, hnone, _, htaken⟩
      · rw [hsame]
        exact h
      · rw [htaken] at htidy ⊢
        refine ⟨h.sound.of_blocks_eq rfl, htidy, h.resolves, ?_⟩
        have hcovers := (Chain.covers_append.mp h.covers).2
        have hsame := Chain.effect_candidateTransactions h.tidy.pending (tail.index + 1) address
        rw [waiting, Chain.covers_append]
        exact ⟨Chain.covers_of_effect hsame hcovers, fun _ hx => absurd hx List.not_mem_nil⟩
  | finish miner now =>
      rcases w.step_finish miner now with
        habandoned | ⟨k, b, hcandidate, hyields, happend, hfinished⟩
      · rw [habandoned]
        exact h.abandoned
      · have hsound := h.sound.append happend
        have hindex : b.index.toNat = w.chain.blocks.length := by
          rw [hsound.index_eq List.getElem?_concat_length, UInt64.toNat_ofNat_of_lt' hroom.2]
        obtain ⟨address, hbatch⟩ := (h.tidy.candidate k hcandidate).coinbase
        rw [← hyields.index, ← hyields.transactions] at hbatch
        have hcovers := Chain.covers_append.mp h.covers
        simp only [underway, hcandidate, Option.map_some, Option.getD_some,
          ← hyields.transactions] at hcovers
        rw [hfinished] at htidy ⊢
        exact ⟨hsound, htidy, h.resolves.append hindex hbatch hcovers.1,
          hcovers.2.of_isPrefix (List.prefix_append _ _)⟩
  | abandon => exact h.abandoned
  | extend policy blocks =>
      rcases w.step_extend policy blocks with hsame | hlonger
      · rw [hsame]
        exact h
      · have hresolves : (w.step (.extend policy blocks)).chain.Resolves := hhonest
        rw [hlonger] at htidy hresolves ⊢
        refine ⟨h.sound.extend blocks, htidy, hresolves, ?_⟩
        rw [waiting, underway, Chain.pending_extend]
        apply h.covers.of_isPrefix
        rw [Chain.chain_extend]
        exact List.prefix_append _ _
  | replace r =>
      refine ⟨h.sound.replace hhonest.1, htidy, hhonest.2.2, ?_⟩
      change Chain.Covers _ (w.underway ++ (w.chain.replace r).chain.pending)
      rw [Chain.pending_replace]
      exact hspares

theorem Secure.run (h : w.Secure) {tasks : List Task} (hroom : w.Along (fun x _ => x.HasRoom) tasks)
    (hhonest : w.Along (fun x t => t.IsHonest x) tasks) (hspares : w.Along Spares tasks) :
    (w.run tasks).Secure := by
  induction tasks generalizing w with
  | nil => exact h
  | cons t rest ih =>
      exact ih (h.step hroom.1 hhonest.1 hspares.1) hroom.2 hhonest.2 hspares.2

/-- Every question about the chain is answered after any tasks from the first block
on, if blocks of others are honest and every replacement spares what the waiting
payments point at. -/
theorem answers_run {tasks : List Task} (hroom : start.Along (fun x _ => x.HasRoom) tasks)
    (hhonest : start.Along (fun x t => t.IsHonest x) tasks) (hspares : start.Along Spares tasks) :
    (start.run tasks).chain.Answers :=
  (secure_start.run hroom hhonest hspares).resolves.answers

theorem hasRoom_spending : start.Along (fun x _ => x.HasRoom) spending := by
  simp only [spending, Along, step_rewarded]
  decide

theorem honest_spending : start.Along (fun x t => t.IsHonest x) spending :=
  ⟨trivial, trivial, trivial, trivial⟩

/-- While the payment of the reward waits, a block is put behind the one with the
reward. Then the payment is mined. -/
def passed : List Task :=
  spending ++ [.replace (.splice 2 [rewardBlock.onTop 5]), .prepare "m",
    .finish (Miner.create "m" 0) 0]

/-- The workbench on which the payment waits and that block is in place. -/
def spared : Workbench :=
  ⟨⟨[Block.genesis, rewardBlock, rewardBlock.onTop 5], [payment]⟩, none, [payment],
    [rewardBlock]⟩

theorem replace_spared :
    spent.chain.replace (.splice 2 [rewardBlock.onTop 5]) = ⟨spared.chain, .ok 1⟩ := by
  have hkept : (Replacement.kept spent.chain 2).blocks = [Block.genesis] ++ [rewardBlock] := rfl
  have hvalid : Block.isSequence ([Block.genesis] ++ [rewardBlock]) = true :=
    Block.isSequence_stack Block.genesis [[.coinbase 1 KeyPair.smallest.address]]
  exact Chain.replace_onTop hkept hvalid 5

theorem step_spared : spent.step (.replace (.splice 2 [rewardBlock.onTop 5])) = spared := by
  rw [step, replace_spared]
  rfl

theorem answers_run_passed :
    start.Along (fun x _ => x.HasRoom) passed ∧ start.Along (fun x t => t.IsHonest x) passed ∧
      start.Along Spares passed ∧ (start.run passed).chain.Answers := by
  have hroom : start.Along (fun x _ => x.HasRoom) passed := by
    rw [passed, along_append, run_spending]
    simp only [Along, step_spared]
    exact ⟨hasRoom_spending, by decide⟩
  have hhonest : start.Along (fun x t => t.IsHonest x) passed := by
    have hreplace : Task.IsHonest spent (.replace (.splice 2 [rewardBlock.onTop 5])) := by
      rw [Task.IsHonest, replace_spared]
      refine ⟨(by decide : (2 : UInt64) ≠ 0), rfl, ?_⟩
      unfold Chain.Resolves
      decide
    rw [passed, along_append, run_spending]
    exact ⟨honest_spending, hreplace, trivial, trivial, trivial⟩
  have hspares : start.Along Spares passed := by
    have hreplace : Spares spent (.replace (.splice 2 [rewardBlock.onTop 5])) := by
      rw [Spares, replace_spared]
      unfold Chain.Covers
      decide
    rw [passed, along_append, run_spending]
    exact ⟨⟨trivial, trivial, trivial, trivial⟩, hreplace, trivial, trivial, trivial⟩
  exact ⟨hroom, hhonest, hspares, answers_run hroom hhonest hspares⟩

/-- The block that takes the place of the one with the reward. -/
def rival : Block := Block.genesis.onTop 5

/-- While the payment of the reward waits, another block takes the place of the one
with the reward. Then the payment is mined. -/
def overtaken : List Task :=
  spending ++ [.replace (.splice 1 [rival]), .prepare "m", .finish (Miner.create "m" 0) 0]

/-- The workbench on which the payment waits without the output that it spends. -/
def robbed : Workbench :=
  ⟨⟨[Block.genesis, rival], [payment]⟩, none, [payment], [rewardBlock]⟩

/-- The block with that payment. -/
def danglingBlock : Block :=
  Block.unmined (rival.index + 1) rival.hash 0
    (robbed.chain.candidateTransactions (rival.index + 1) "m") 0 "m"

theorem replace_robbed :
    spent.chain.replace (.splice 1 [rival]) = ⟨robbed.chain, .ok 1⟩ := by
  have hkept : (Replacement.kept spent.chain 1).blocks = [] ++ [Block.genesis] := rfl
  exact Chain.replace_onTop hkept rfl 5

theorem step_robbed : spent.step (.replace (.splice 1 [rival])) = robbed := by
  rw [step, replace_robbed]
  rfl

/-- The chain in which that block points at the lost output. -/
def dangling : Chain := ⟨[Block.genesis, rival, danglingBlock], []⟩

theorem transactions_danglingBlock :
    danglingBlock.transactions = [.coinbase 2 "m", payment.withIdIn 2] :=
  Chain.candidateTransactions_of_pending (c := ⟨[Block.genesis, rival], []⟩) rfl
    (Payment.isCoinbase_of_make make_rewarded) 2 "m"

theorem run_overtaken : (start.run overtaken).chain = dangling := by
  have htail : robbed.chain.tail? = some rival := rfl
  have hblock : danglingBlock = Block.unmined (rival.index + 1) rival.hash 0
      (robbed.chain.candidateTransactions (rival.index + 1) "m") 0 "m" := rfl
  rw [overtaken, run_append, run_spending, run_cons, step_robbed, run_cons, run_cons,
    step_prepare_finish rfl htail _ _ _ hblock]
  rfl

theorem details_dangling : dangling.details 2 = .error ⟨⟨1, 0, 0⟩, 2⟩ := by
  have hget : dangling.get? 2 = some danglingBlock := rfl
  have hreward : (dangling.output? ⟨2, 0, 0⟩).isSome = true := by
    rw [Chain.output?, hget, Option.bind_some, transactions_danglingBlock]
    rfl
  have hins : ∀ i ∈ (Transaction.coinbase 2 "m").ins,
      (dangling.output? i.point).isSome = true := by
    intro i hi
    rw [List.mem_singleton.mp hi]
    exact hreward
  have hcoinbase := Chain.resolveTransaction_eq_ok hins 2
  have hpayment : dangling.resolveTransaction 2 (payment.withIdIn 2) =
      .error ⟨⟨1, 0, 0⟩, 2⟩ := rfl
  rw [Chain.details, hget]
  simp only [transactions_danglingBlock, List.mapM_cons, hcoinbase, hpayment]
  rfl

/-- Honest replacements are not enough for every question to be answered. -/
theorem not_answers_run : ¬ ∀ tasks : List Task, start.Along (fun x _ => x.HasRoom) tasks →
    start.Along (fun x t => t.IsHonest x) tasks → (start.run tasks).chain.Answers := by
  intro hall
  have hroom : start.Along (fun x _ => x.HasRoom) overtaken := by
    rw [overtaken, along_append, run_spending]
    simp only [Along, step_robbed]
    exact ⟨hasRoom_spending, by decide⟩
  have hhonest : start.Along (fun x t => t.IsHonest x) overtaken := by
    have hreplace : Task.IsHonest spent (.replace (.splice 1 [rival])) := by
      rw [Task.IsHonest, replace_robbed]
      refine ⟨(by decide : (1 : UInt64) ≠ 0), rfl, ?_⟩
      intro b hb
      rcases List.mem_pair.mp hb with rfl | rfl <;> exact fun _ h => absurd h List.not_mem_nil
    rw [overtaken, along_append, run_spending]
    exact ⟨honest_spending, hreplace, trivial, trivial, trivial⟩
  obtain ⟨found, hfound⟩ := (hall overtaken hroom hhonest).details 2
  rw [run_overtaken, details_dangling] at hfound
  cases hfound

end Workbench

end WorkLedger
