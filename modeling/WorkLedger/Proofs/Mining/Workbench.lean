import WorkLedger.Chain.Queue
import WorkLedger.Node.Basic
import WorkLedger.Proofs.Mining.Found
import WorkLedger.Proofs.Payment.Made
import WorkLedger.Proofs.Sync.Reconcile

/-!
# The workbench of a miner

A workbench is a chain with at most one candidate for its next block. Payments are
submitted at any time. They wait in the queue, are on their way while a candidate
holds them, and arrive in a mined block, unless the candidate is abandoned and they
go back to the front of the queue. Meanwhile blocks of others are taken.

No payment is a coinbase, so none is dropped from the queue or from an abandoned
candidate. What has arrived, what is on its way and what waits is therefore, in this
order, what was submitted (`conserved_run`). Only the ids are new in every candidate.
-/

namespace WorkLedger

/-- A chain, the candidate for its next block, and a record of what was done. -/
structure Workbench where
  chain : Chain
  candidate : Option Candidate
  /-- The payments that were submitted, oldest first. -/
  submitted : List Transaction
  /-- The blocks that were mined here and appended, oldest first. -/
  mined : List Block

/-- What can be done at a workbench. -/
inductive Task where
  /-- A payment is made and queued. -/
  | submit (privateKey receiver : String) (amount : Float)
  /-- What waits is taken into a candidate, whose reward goes to the address. -/
  | prepare (address : String)
  /-- The block of the candidate is searched for and appended. -/
  | finish (miner : Miner) (now : UInt64)
  | abandon
  /-- Blocks of a peer are taken if they continue the chain. -/
  | extend (policy : Reconciler) (blocks : List Block)
  | replace (r : Replacement)

/-- Whether a task may take blocks away. -/
def Task.isReplace : Task → Bool
  | .replace _ => true
  | _ => false

/-- What a transaction spends and creates, without its id. -/
def Transaction.effect (tx : Transaction) : List TxIn × List TxOut := (tx.ins, tx.outs)

/-- The transactions of a block with an index: its coinbase, and payments, all with
their ids in the block. -/
structure Transaction.IsBatch (index : UInt64) (txs : List Transaction) : Prop where
  coinbase : ∃ address, txs = .coinbase index address :: Chain.payments txs
  id : ∀ tx ∈ txs, tx.id = tx.idIn index

namespace Chain

@[simp] theorem payments_nil : payments [] = [] := rfl

@[simp] theorem payments_append (txs more : List Transaction) :
    payments (txs ++ more) = payments txs ++ payments more :=
  List.filter_append txs more

theorem isCoinbase_of_mem_payments {txs : List Transaction} {tx : Transaction}
    (h : tx ∈ payments txs) : tx.isCoinbase = false :=
  (Bool.not_eq_true' _).mp (List.mem_filter.mp h).2

theorem payments_of_isCoinbase {txs : List Transaction}
    (h : ∀ tx ∈ txs, tx.isCoinbase = false) : payments txs = txs :=
  List.filter_eq_self.mpr fun tx htx => (Bool.not_eq_true' _).mpr (h tx htx)

theorem payments_candidateTransactions (c : Chain) (index : UInt64) (address : String) :
    payments (c.candidateTransactions index address) =
      (payments c.pending).map fun tx => tx.withIdIn index := by
  simp [candidateTransactions, payments, List.filter_map, Function.comp_def]

theorem isBatch_candidateTransactions (c : Chain) (index : UInt64) (address : String) :
    Transaction.IsBatch index (c.candidateTransactions index address) := by
  constructor
  · exact ⟨address, by rw [payments_candidateTransactions]; rfl⟩
  · intro tx htx
    rcases List.mem_cons.mp htx with rfl | hwaiting
    · rfl
    · obtain ⟨_, _, rfl⟩ := List.mem_map.mp hwaiting
      rfl

/-- A candidate holds what waits, if only payments do. -/
theorem effect_candidateTransactions {c : Chain} (h : ∀ tx ∈ c.pending, tx.isCoinbase = false)
    (index : UInt64) (address : String) :
    (payments (c.candidateTransactions index address)).map Transaction.effect =
      c.pending.map Transaction.effect := by
  rw [payments_candidateTransactions, payments_of_isCoinbase h, List.map_map]
  rfl

theorem pending_extend (c : Chain) (bs : List Block) : (c.extend bs).chain.pending = c.pending := by
  rw [chain_extend]

theorem pending_replace (c : Chain) (r : Replacement) :
    (c.replace r).chain.pending = c.pending := by
  cases r with
  | full bs =>
      change (Replacement.applyFull c bs).chain.pending = c.pending
      rw [Replacement.applyFull_chain]
      split <;> rfl
  | splice start bs =>
      change (Replacement.applySplice c start bs).chain.pending = c.pending
      rcases Replacement.applySplice_chain c start bs with hsame | hextended
      · rw [hsame]
      · rw [hextended, pending_extend]
        rfl

end Chain

namespace Workbench

/-- The workbench that begins with the first block. -/
def start : Workbench := ⟨Chain.start, none, [], []⟩

/-- Gives up the candidate: its payments go back to the front of the queue. -/
def abandoned (w : Workbench) : Workbench :=
  match w.candidate with
  | none => w
  | some k => { w with candidate := none, chain := w.chain.requeue k.transactions }

/-- What a workbench becomes by a task. A payment that cannot be made changes
nothing, and neither does preparing a second candidate. -/
def step (w : Workbench) : Task → Workbench
  | .submit privateKey receiver amount =>
    match Payment.make w.chain privateKey receiver amount with
    | .ok tx => { w with chain := w.chain.enqueue tx, submitted := w.submitted ++ [tx] }
    | .error _ => w
  | .prepare address =>
    match w.candidate, w.chain.tail? with
    | none, some tail =>
      { w with
        chain := w.chain.drained
        candidate := some ⟨tail.index + 1, tail.hash,
          w.chain.candidateTransactions (tail.index + 1) address⟩ }
    | _, _ => w
  | .finish miner now =>
    match w.candidate with
    | none => w
    | some k =>
      match miner.mine now k.index k.transactions k.previousHash with
      | none => w.abandoned
      | some found =>
        match w.chain.append found.block with
        | .error _ => w.abandoned
        | .ok chain => { w with chain, candidate := none, mined := w.mined ++ [found.block] }
  | .abandon => w.abandoned
  | .extend policy blocks =>
    match policy.reconcile w.chain blocks with
    | (.extended _, chain) => { w with chain }
    | _ => w
  | .replace r => { w with chain := (w.chain.replace r).chain }

/-- What a workbench becomes by a list of tasks. -/
def run (w : Workbench) (tasks : List Task) : Workbench := tasks.foldl step w

theorem run_cons (w : Workbench) (t : Task) (rest : List Task) :
    w.run (t :: rest) = (w.step t).run rest := rfl

theorem run_append (w : Workbench) (tasks more : List Task) :
    w.run (tasks ++ more) = (w.run tasks).run more := List.foldl_append

/-- The payments of the candidate. -/
def underway (w : Workbench) : List Transaction :=
  Chain.payments ((w.candidate.map Candidate.transactions).getD [])

/-- What has arrived, what is on its way, and what waits. -/
def flow (w : Workbench) : List Transaction :=
  Chain.payments (w.mined.flatMap Block.transactions) ++ w.underway ++ w.chain.pending

theorem abandoned_cases (w : Workbench) :
    w.abandoned = w ∨ ∃ k, w.candidate = some k ∧
      w.abandoned = { w with candidate := none, chain := w.chain.requeue k.transactions } := by
  unfold abandoned
  cases w.candidate with
  | none => exact Or.inl rfl
  | some k => exact Or.inr ⟨k, rfl, rfl⟩

theorem step_submit_of_ok {w : Workbench} {privateKey receiver : String} {amount : Float}
    {tx : Transaction} (h : Payment.make w.chain privateKey receiver amount = .ok tx) :
    w.step (.submit privateKey receiver amount) =
      { w with chain := w.chain.enqueue tx, submitted := w.submitted ++ [tx] } := by
  simp only [step, h]

theorem step_submit (w : Workbench) (privateKey receiver : String) (amount : Float) :
    w.step (.submit privateKey receiver amount) = w ∨
      ∃ tx, Payment.make w.chain privateKey receiver amount = .ok tx ∧
        w.step (.submit privateKey receiver amount) =
          { w with chain := w.chain.enqueue tx, submitted := w.submitted ++ [tx] } := by
  cases hmade : Payment.make w.chain privateKey receiver amount with
  | error e => exact Or.inl (by simp only [step, hmade])
  | ok tx => exact Or.inr ⟨tx, rfl, step_submit_of_ok hmade⟩

theorem step_prepare (w : Workbench) (address : String) :
    w.step (.prepare address) = w ∨
      ∃ tail, w.candidate = none ∧ w.chain.tail? = some tail ∧
        w.step (.prepare address) =
          { w with
            chain := w.chain.drained
            candidate := some ⟨tail.index + 1, tail.hash,
              w.chain.candidateTransactions (tail.index + 1) address⟩ } := by
  cases hcandidate : w.candidate with
  | some k => exact Or.inl (by simp only [step, hcandidate])
  | none =>
      cases htail : w.chain.tail? with
      | none => exact Or.inl (by simp only [step, hcandidate, htail])
      | some tail => exact Or.inr ⟨tail, rfl, rfl, by simp only [step, hcandidate, htail]⟩

/-- A candidate is finished by a genuine block of its transactions that the chain
takes, or it is abandoned. -/
theorem step_finish (w : Workbench) (miner : Miner) (now : UInt64) :
    w.step (.finish miner now) = w.abandoned ∨
      ∃ k b, w.candidate = some k ∧
        miner.Yields now k.index k.transactions k.previousHash b ∧
        w.chain.append b = .ok { w.chain with blocks := w.chain.blocks ++ [b] } ∧
        w.step (.finish miner now) =
          { w with
            chain := { w.chain with blocks := w.chain.blocks ++ [b] }
            candidate := none
            mined := w.mined ++ [b] } := by
  cases hcandidate : w.candidate with
  | none => exact Or.inl (by simp only [step, abandoned, hcandidate])
  | some k =>
      cases hmined : miner.mine now k.index k.transactions k.previousHash with
      | none => exact Or.inl (by simp only [step, hcandidate, hmined])
      | some found =>
          cases happend : w.chain.append found.block with
          | error e => exact Or.inl (by simp only [step, hcandidate, hmined, happend])
          | ok longer =>
              obtain ⟨_, rfl⟩ := Chain.append_eq_ok happend
              exact Or.inr ⟨k, found.block, rfl, Miner.yields_of_mine hmined, happend,
                by simp only [step, hcandidate, hmined, happend]⟩

theorem step_extend (w : Workbench) (policy : Reconciler) (blocks : List Block) :
    w.step (.extend policy blocks) = w ∨
      w.step (.extend policy blocks) = { w with chain := (w.chain.extend blocks).chain } := by
  have hchain := Reconciler.reconcile_chain policy w.chain blocks
  rcases hresult : policy.reconcile w.chain blocks with ⟨outcome, c⟩
  rw [hresult] at hchain
  cases outcome with
  | extended count =>
      rcases hchain with rfl | rfl
      · exact Or.inl (by simp only [step, hresult])
      · exact Or.inr (by simp only [step, hresult])
  | discarded => exact Or.inl (by simp only [step, hresult])
  | replace r => exact Or.inl (by simp only [step, hresult])
  | requestRange range => exact Or.inl (by simp only [step, hresult])

section

variable {w : Workbench}

/-- On a tidy workbench only payments wait, the candidate and the mined blocks hold
batches for their indices, and nothing that was submitted is missing, there twice, or
out of order. -/
structure Tidy (w : Workbench) : Prop where
  pending : ∀ tx ∈ w.chain.pending, tx.isCoinbase = false
  candidate : ∀ k, w.candidate = some k → Transaction.IsBatch k.index k.transactions
  mined : ∀ b ∈ w.mined, Transaction.IsBatch b.index b.transactions
  conserved : w.flow.map Transaction.effect = w.submitted.map Transaction.effect

theorem tidy_start : start.Tidy where
  pending := fun _ h => absurd h List.not_mem_nil
  candidate := fun _ h => absurd h nofun
  mined := fun _ h => absurd h List.not_mem_nil
  conserved := rfl

/-- Whether a workbench is tidy does not depend on the blocks of its chain. -/
theorem Tidy.of_pending_eq (h : w.Tidy) {c : Chain} (hpending : c.pending = w.chain.pending) :
    Tidy { w with chain := c } := by
  refine ⟨?_, h.candidate, h.mined, ?_⟩
  · rw [hpending]
    exact h.pending
  · rw [← h.conserved]
    simp only [flow, underway, hpending]

theorem Tidy.abandoned (h : w.Tidy) : w.abandoned.Tidy := by
  rcases w.abandoned_cases with hsame | ⟨k, hcandidate, hgiven⟩
  · rw [hsame]
    exact h
  · rw [hgiven]
    refine ⟨?_, fun _ hnone => absurd hnone nofun, h.mined, ?_⟩
    · intro tx htx
      rcases List.mem_append.mp htx with hback | hwaiting
      · exact Chain.isCoinbase_of_mem_payments hback
      · exact h.pending tx hwaiting
    · rw [← h.conserved]
      simp [flow, underway, hcandidate, Chain.requeue]

/-- Tasks keep a workbench tidy. -/
theorem Tidy.step (h : w.Tidy) (t : Task) : (w.step t).Tidy := by
  cases t with
  | submit privateKey receiver amount =>
      rcases w.step_submit privateKey receiver amount with hsame | ⟨tx, hmade, hqueued⟩
      · rw [hsame]
        exact h
      · rw [hqueued]
        refine ⟨?_, h.candidate, h.mined, ?_⟩
        · intro x hx
          rcases List.mem_append.mp hx with hwaiting | hnew
          · exact h.pending x hwaiting
          · rw [List.mem_singleton.mp hnew]
            exact Payment.isCoinbase_of_make hmade
        · rw [List.map_append, ← h.conserved]
          simp [flow, underway, Chain.enqueue]
  | prepare address =>
      rcases w.step_prepare address with hsame | ⟨tail, hnone, _, htaken⟩
      · rw [hsame]
        exact h
      · rw [htaken]
        refine ⟨fun _ hx => absurd hx List.not_mem_nil, ?_, h.mined, ?_⟩
        · intro k hk
          obtain rfl := Option.some.inj hk
          exact Chain.isBatch_candidateTransactions _ _ _
        · have hkept := Chain.effect_candidateTransactions h.pending (tail.index + 1) address
          rw [← h.conserved]
          simp [flow, underway, hnone, Chain.drained, hkept]
  | finish miner now =>
      rcases w.step_finish miner now with habandoned | ⟨k, b, hcandidate, hyields, _, hfinished⟩
      · rw [habandoned]
        exact h.abandoned
      · rw [hfinished]
        refine ⟨h.pending, fun _ hnone => absurd hnone nofun, ?_, ?_⟩
        · intro x hx
          rcases List.mem_append.mp hx with hold | hnew
          · exact h.mined x hold
          · rw [List.mem_singleton.mp hnew, hyields.index, hyields.transactions]
            exact h.candidate k hcandidate
        · rw [← h.conserved]
          simp [flow, underway, hcandidate, hyields.transactions]
  | abandon => exact h.abandoned
  | extend policy blocks =>
      rcases w.step_extend policy blocks with hsame | hlonger
      · rw [hsame]
        exact h
      · rw [hlonger]
        exact h.of_pending_eq (Chain.pending_extend _ _)
  | replace r => exact h.of_pending_eq (Chain.pending_replace _ _)

theorem Tidy.run (h : w.Tidy) (tasks : List Task) : (w.run tasks).Tidy := by
  induction tasks generalizing w with
  | nil => exact h
  | cons t rest ih => exact ih (h.step t)

/-- Only a replacement takes mined blocks away. -/
theorem mined_sublist_step (h : w.mined.Sublist w.chain.blocks) {t : Task}
    (ht : t.isReplace = false) : (w.step t).mined.Sublist (w.step t).chain.blocks := by
  have habandoned : w.abandoned.mined.Sublist w.abandoned.chain.blocks := by
    rcases w.abandoned_cases with hsame | ⟨k, _, hgiven⟩
    · rw [hsame]
      exact h
    · rw [hgiven]
      exact h
  cases t with
  | submit privateKey receiver amount =>
      rcases w.step_submit privateKey receiver amount with hsame | ⟨tx, _, hqueued⟩
      · rw [hsame]
        exact h
      · rw [hqueued]
        exact h
  | prepare address =>
      rcases w.step_prepare address with hsame | ⟨tail, _, _, htaken⟩
      · rw [hsame]
        exact h
      · rw [htaken]
        exact h
  | finish miner now =>
      rcases w.step_finish miner now with hsame | ⟨k, b, _, _, _, hfinished⟩
      · rw [hsame]
        exact habandoned
      · rw [hfinished]
        exact h.append_right [b]
  | abandon => exact habandoned
  | extend policy blocks =>
      rcases w.step_extend policy blocks with hsame | hlonger
      · rw [hsame]
        exact h
      · rw [hlonger, Chain.chain_extend]
        exact h.trans (List.sublist_append_left _ _)
  | replace r => cases ht

theorem mined_sublist_run (h : w.mined.Sublist w.chain.blocks) {tasks : List Task}
    (htasks : ∀ t ∈ tasks, t.isReplace = false) :
    (w.run tasks).mined.Sublist (w.run tasks).chain.blocks := by
  induction tasks generalizing w with
  | nil => exact h
  | cons t rest ih =>
      exact ih (mined_sublist_step h (htasks t List.mem_cons_self))
        fun x hx => htasks x (List.mem_cons_of_mem t hx)

end

/-- After any tasks, the payments that arrived in mined blocks, then those of the
candidate, then the queue, are what was submitted, in order and up to their ids.
Every mined block holds its coinbase and then payments, with their ids in the block.
As long as nothing is replaced, the mined blocks are in the chain, in order. -/
theorem conserved_run (tasks : List Task) :
    (start.run tasks).flow.map Transaction.effect =
        (start.run tasks).submitted.map Transaction.effect ∧
      (∀ b ∈ (start.run tasks).mined, Transaction.IsBatch b.index b.transactions) ∧
      ((∀ t ∈ tasks, t.isReplace = false) →
        (start.run tasks).mined.Sublist (start.run tasks).chain.blocks) :=
  have htidy := tidy_start.run tasks
  ⟨htidy.conserved, htidy.mined, mined_sublist_run (List.nil_sublist _)⟩

/-- A candidate of what waits becomes a block at once if there is no work to do. -/
theorem step_prepare_finish {w : Workbench} (hcandidate : w.candidate = none) {tail : Block}
    (htail : w.chain.tail? = some tail) (address id : String) (now : UInt64) {b : Block}
    (hb : b = Block.unmined (tail.index + 1) tail.hash now
      (w.chain.candidateTransactions (tail.index + 1) address) 0 id) :
    (w.step (.prepare address)).step (.finish (Miner.create id 0) now) =
      ⟨⟨w.chain.blocks ++ [b], []⟩, none, w.submitted, w.mined ++ [b]⟩ := by
  have hmined := Miner.mine_of_difficulty_eq_zero id now (tail.index + 1)
    (w.chain.candidateTransactions (tail.index + 1) address) tail.hash
  have happend := Chain.append_of_yields (c := w.chain.drained) htail
    (Miner.yields_of_mine hmined)
  rw [hb]
  simp only [step, hcandidate, htail, hmined, happend]
  rfl

/-- A block with the reward of the owner of a key. -/
def rewardBlock : Block :=
  Block.unmined 1 Block.genesis.hash 0 [.coinbase 1 KeyPair.smallest.address] 0 "miner"

/-- The workbench on which that block was mined. -/
def rewarded : Workbench := ⟨⟨[Block.genesis, rewardBlock], []⟩, none, [], [rewardBlock]⟩

/-- The payment of the reward to a shop. -/
def payment : Transaction :=
  ⟨"", [Payment.signedInput .smallest ⟨⟨1, 0, 0⟩, KeyPair.smallest.address, Transaction.reward⟩],
    Payment.outputs KeyPair.smallest.address "shop" Transaction.reward (0 + Transaction.reward)⟩

theorem unspent_rewarded : rewarded.chain.unspent KeyPair.smallest.address =
    [⟨⟨1, 0, 0⟩, KeyPair.smallest.address, Transaction.reward⟩] := by
  simp only [rewarded, rewardBlock, KeyPair.address_smallest]
  rfl

theorem make_rewarded :
    Payment.make rewarded.chain KeyPair.smallestHex "shop" Transaction.reward = .ok payment := by
  have hother : Text.equalIgnoringCase "shop" KeyPair.smallest.address = false := by
    rw [KeyPair.address_smallest]
    decide
  exact Payment.make_of_single KeyPair.ofHex_smallestHex unspent_rewarded hother (by decide) (by decide)

/-- The reward is mined, and paid to the shop. -/
def spending : List Task :=
  [.prepare KeyPair.smallest.address, .finish (Miner.create "miner" 0) 0,
    .submit KeyPair.smallestHex "shop" Transaction.reward]

theorem step_rewarded : (start.step (.prepare KeyPair.smallest.address)).step
    (.finish (Miner.create "miner" 0) 0) = rewarded := by
  have htail : start.chain.tail? = some Block.genesis := rfl
  have hblock : rewardBlock = Block.unmined (Block.genesis.index + 1) Block.genesis.hash 0
      (start.chain.candidateTransactions (Block.genesis.index + 1) KeyPair.smallest.address) 0
      "miner" := rfl
  rw [step_prepare_finish rfl htail _ _ _ hblock]
  rfl

/-- The workbench on which the payment waits. -/
def spent : Workbench :=
  ⟨⟨[Block.genesis, rewardBlock], [payment]⟩, none, [payment], [rewardBlock]⟩

theorem step_spent :
    rewarded.step (.submit KeyPair.smallestHex "shop" Transaction.reward) = spent := by
  rw [step_submit_of_ok make_rewarded]
  rfl

theorem run_spending : start.run spending = spent := by
  rw [spending, run_cons, run_cons, step_rewarded, run_cons, step_spent]
  rfl

theorem conserved_run_spending :
    (∀ t ∈ spending, t.isReplace = false) ∧ (start.run spending).submitted = [payment] ∧
      (start.run spending).mined = [rewardBlock] ∧
      (start.run spending).flow.map Transaction.effect =
        (start.run spending).submitted.map Transaction.effect ∧
      (∀ b ∈ (start.run spending).mined, Transaction.IsBatch b.index b.transactions) ∧
      (start.run spending).mined.Sublist (start.run spending).chain.blocks := by
  have hkept : ∀ t ∈ spending, t.isReplace = false := by decide
  obtain ⟨hflow, hmined, hsublist⟩ := conserved_run spending
  exact ⟨hkept, by rw [run_spending]; rfl, by rw [run_spending]; rfl, hflow, hmined,
    hsublist hkept⟩

end Workbench
end WorkLedger
