import WorkLedger.Node.Conversation
import WorkLedger.Proofs.Mining.Workbench

/-!
# Nodes at the workbench

The chain and the candidate of a node are a workbench. Whatever a node is ordered to do,
it does by tasks at its workbench, and it submits there what it is ordered to submit
(`exists_tasks`). So it mines batches of payments only, and loses none that wait.
-/

namespace WorkLedger

namespace Node

@[simp] theorem candidate_announce (n : Node) : n.announce.candidate = n.candidate := by
  unfold announce
  split <;> rfl

/-- A round ends in giving up the candidate, or in a block that is appended and written. -/
theorem endRound_cases (n : Node) (now : UInt64) :
    n.endRound now = n.abandon ∨ ∃ k found c, n.candidate = some k ∧
      n.miner.mine now k.index k.transactions k.previousHash = some found ∧
      n.chain.append found.block = .ok c ∧
      n.endRound now = announce
        { n with candidate := none, chain := c, store := (n.store.write found.block).store } := by
  cases hcandidate : n.candidate with
  | none =>
      left
      simp only [endRound, abandon, hcandidate]
  | some k =>
      cases hmined : n.miner.mine now k.index k.transactions k.previousHash with
      | none =>
          left
          simp only [endRound, hcandidate, hmined]
      | some found =>
          cases happend : n.chain.append found.block with
          | error e =>
              left
              simp only [endRound, hcandidate, hmined, happend]
          | ok c =>
              refine Or.inr ⟨k, found, c, rfl, hmined, happend, ?_⟩
              simp only [endRound, hcandidate, hmined, happend]

/-- What a node is ordered to do. -/
inductive Order where
  | submit (privateKey receiver : String) (amount : Float)
  | startMining
  | stopMining
  | mineRound (now : UInt64)
  | receive (peer : Nat) (role : Role) (text : String)
  | start (dial : Dialer)
  | connect (dial : Dialer) (address : String)
  | welcome (address : String)
  | forget (peer : Nat)
  | shutdown

/-- What a node becomes by an order, and what was submitted to it up to then. -/
def obey (s : Node × List Transaction) : Order → Node × List Transaction
  | .submit privateKey receiver amount =>
    match s.1.submit privateKey receiver amount with
    | .ok (tx, n) => (n, s.2 ++ [tx])
    | .error _ => s
  | .startMining => (s.1.startMining.2, s.2)
  | .stopMining => (s.1.stopMining.2, s.2)
  | .mineRound now => (s.1.mineRound now, s.2)
  | .receive peer role text => (s.1.receive peer role text, s.2)
  | .start dial => ((s.1.start dial).toOption.getD s.1, s.2)
  | .connect dial address => (((s.1.connect dial address).toOption.map Prod.snd).getD s.1, s.2)
  | .welcome address => (s.1.welcome address, s.2)
  | .forget peer => (s.1.forget peer, s.2)
  | .shutdown => (s.1.shutdown, s.2)

/-- The workbench of a node. -/
def bench (n : Node) (submitted : List Transaction) (mined : List Block) : Workbench :=
  ⟨n.chain, n.candidate, submitted, mined⟩

/-- Some tasks make the workbench of a node out of another one. -/
def ReachedFrom (w : Workbench) (n : Node) (submitted : List Transaction) : Prop :=
  ∃ tasks mined, w.run tasks = n.bench submitted mined

section

variable {w : Workbench} {n m : Node} {submitted : List Transaction}
  (h : ReachedFrom w n submitted)

include h

theorem ReachedFrom.of_eq (hchain : m.chain = n.chain) (hcandidate : m.candidate = n.candidate) :
    ReachedFrom w m submitted := by
  obtain ⟨tasks, mined, hrun⟩ := h
  refine ⟨tasks, mined, hrun.trans ?_⟩
  rw [bench, bench, hchain, hcandidate]

theorem ReachedFrom.step {later : List Transaction} (t : Task)
    (ht : ∀ mined, ∃ more, (n.bench submitted mined).step t = m.bench later more) :
    ReachedFrom w m later := by
  obtain ⟨tasks, mined, hrun⟩ := h
  obtain ⟨more, hstep⟩ := ht mined
  refine ⟨tasks ++ [t], more, ?_⟩
  rw [Workbench.run_append, hrun]
  exact hstep

theorem ReachedFrom.abandon : ReachedFrom w n.abandon submitted := by
  refine h.step .abandon fun mined => ⟨mined, ?_⟩
  cases hcandidate : n.candidate with
  | none => simp only [Workbench.step, Workbench.abandoned, Node.abandon, bench, hcandidate]
  | some k => simp only [Workbench.step, Workbench.abandoned, Node.abandon, bench, hcandidate]

theorem ReachedFrom.settle : ReachedFrom w n.settle submitted := by
  cases hstaged : n.staged with
  | none =>
      rw [Node.settle, hstaged]
      exact h
  | some r =>
      refine h.step (.replace r) fun mined => ⟨mined, ?_⟩
      cases hresult : (n.chain.replace r).result with
      | ok _ =>
          simp only [Node.settle, hstaged, hresult, bench, chain_announce, candidate_announce]
          rfl
      | error e =>
          simp only [Node.settle, hstaged, hresult]
          rfl

theorem ReachedFrom.prepare (hnone : n.candidate = none) : ReachedFrom w n.prepare submitted := by
  refine h.step (.prepare n.config.rewardAddress) fun mined => ⟨mined, ?_⟩
  cases htail : n.chain.tail? with
  | none =>
      simp only [Workbench.step, Node.prepare, candidate?, bench, hnone, htail, Option.map_none]
  | some tail =>
      simp only [Workbench.step, Node.prepare, candidate?, bench, hnone, htail, Option.map_some]

theorem ReachedFrom.endRound (now : UInt64) : ReachedFrom w (n.endRound now) submitted := by
  rcases n.endRound_cases now with hgiven | ⟨k, found, c, hcandidate, hmined, happend, hround⟩
  · rw [hgiven]
    exact h.abandon
  · refine h.step (.finish n.miner now) fun mined => ⟨mined ++ [found.block], ?_⟩
    simp only [Workbench.step, hround, bench, hcandidate, hmined, happend, chain_announce,
      candidate_announce]

end

theorem candidate_abandon (n : Node) : n.abandon.candidate = none := by
  unfold abandon
  cases hcandidate : n.candidate with
  | none => exact hcandidate
  | some k => rfl

theorem candidate_endRound (n : Node) (now : UInt64) : (n.endRound now).candidate = none := by
  rcases n.endRound_cases now with hgiven | ⟨_, _, _, _, _, _, hround⟩
  · rw [hgiven]
    exact n.candidate_abandon
  · rw [hround, candidate_announce]

theorem candidate_settle (n : Node) : n.settle.candidate = n.candidate := by
  cases hstaged : n.staged with
  | none => simp only [settle, hstaged]
  | some r =>
      simp only [settle, hstaged]
      split
      · rw [candidate_announce]
        rfl
      · rfl

section

variable {w : Workbench} {n : Node} {submitted : List Transaction}
  (h : ReachedFrom w n submitted)

include h

theorem ReachedFrom.beginRound (hnone : n.candidate = none) :
    ReachedFrom w n.beginRound submitted := by
  have hresumed : ReachedFrom w { n with miner := n.miner.resume } submitted := h.of_eq rfl rfl
  exact hresumed.settle.prepare ((candidate_settle _).trans hnone)

theorem ReachedFrom.startMining : ReachedFrom w n.startMining.2 submitted := by
  rw [Node.startMining]
  split
  · exact h
  next hidle =>
    rw [isMining, Option.not_isSome_iff_eq_none] at hidle
    exact h.beginRound hidle

theorem ReachedFrom.stopMining : ReachedFrom w n.stopMining.2 submitted := by
  have hcancelled : ReachedFrom w { n with miner := n.miner.cancel } submitted := h.of_eq rfl rfl
  exact hcancelled.abandon.settle

theorem ReachedFrom.mineRound (now : UInt64) : ReachedFrom w (n.mineRound now) submitted := by
  rw [Node.mineRound]
  split
  · exact (h.endRound now).beginRound (n.candidate_endRound now)
  · exact h

theorem ReachedFrom.stage (r : Replacement) : ReachedFrom w (n.stage r) submitted := by
  have hwaiting : ReachedFrom w { n with staged := some r } submitted := h.of_eq rfl rfl
  rw [Node.stage]
  dsimp only
  split
  · exact h.of_eq rfl rfl
  · exact hwaiting.settle

theorem ReachedFrom.takeBlocks (peer : Nat) (blocks : List Block) :
    ReachedFrom w (n.takeBlocks peer blocks) submitted := by
  rcases hresult : n.reconciler.reconcile n.chain blocks with ⟨outcome, chain⟩
  simp only [Node.takeBlocks, hresult]
  -- an extension by no block is passed over, so it is no task either
  split
  · exact h
  · exact h
  next count _ =>
    refine h.step (.extend n.reconciler blocks) fun mined => ⟨mined, ?_⟩
    simp only [Workbench.step, bench, hresult, chain_announce, candidate_announce]
  next r => exact h.stage r
  next range => exact h.of_eq rfl rfl

theorem ReachedFrom.follow (peer : Nat) (s : Response) :
    ReachedFrom w (n.follow peer s) submitted := by
  cases s with
  | summary first tail weight =>
      rw [Node.follow]
      split
      · exact h
      · exact h.of_eq rfl rfl
      · exact h.of_eq rfl rfl
  | chain blocks => exact h.takeBlocks peer blocks
  | error message text => exact h
  | unknown kind => exact h

theorem ReachedFrom.receive (peer : Nat) (role : Role) (text : String) :
    ReachedFrom w (n.receive peer role text) submitted := by
  unfold Node.receive
  split
  · exact h.of_eq rfl rfl
  next s _ => exact h.follow peer s
  · exact h
  · split
    · exact h.of_eq rfl rfl
    · exact h

theorem ReachedFrom.sendSummary (id : ℕ) : ReachedFrom w (n.sendSummary id) submitted := by
  rw [Node.sendSummary]
  split
  · exact h.of_eq rfl rfl
  · exact h

theorem ReachedFrom.welcome (address : String) :
    ReachedFrom w (n.welcome address) submitted := by
  rw [Node.welcome]
  split
  next id peers _ =>
    have hadded : ReachedFrom w { n with peers } submitted := h.of_eq rfl rfl
    exact hadded.sendSummary id
  · exact h

theorem ReachedFrom.connect (dial : Dialer) (address : String) :
    ReachedFrom w (((n.connect dial address).toOption.map Prod.snd).getD n) submitted := by
  rw [Node.connect]
  dsimp only
  split
  · exact h
  · cases n.peers.add (peerUrl address) .outbound with
    | error e => exact h
    | ok x =>
        have hasked : ReachedFrom w ({ n with peers := x.2 }.sendText x.1 Request.summary.text)
            submitted := h.of_eq rfl rfl
        exact hasked.sendSummary x.1

theorem ReachedFrom.connectAll (dial : Dialer) (addresses : List String) :
    ReachedFrom w (n.connectAll dial addresses) submitted := by
  rw [Node.connectAll]
  induction addresses generalizing n with
  | nil => exact h
  | cons address rest ih => exact ih (h.connect dial address)

theorem ReachedFrom.start (dial : Dialer) :
    ReachedFrom w ((n.start dial).toOption.getD n) submitted := by
  rw [Node.start]
  split
  · exact h
  · have hstarted : ReachedFrom w { n with started := true } submitted := h.of_eq rfl rfl
    exact hstarted.connectAll dial n.config.bootstrap

theorem ReachedFrom.obey (o : Order) :
    ReachedFrom w (Node.obey (n, submitted) o).1 (Node.obey (n, submitted) o).2 := by
  cases o with
  | submit privateKey receiver amount =>
      cases hmade : Payment.make n.chain privateKey receiver amount with
      | error e =>
          have hrefused : n.submit privateKey receiver amount = .error e := by
            rw [Node.submit, hmade]
            rfl
          simp only [Node.obey, hrefused]
          exact h
      | ok tx =>
          have hsubmitted : n.submit privateKey receiver amount =
              .ok (tx, { n with chain := n.chain.enqueue tx }) := by
            rw [Node.submit, hmade]
            rfl
          simp only [Node.obey, hsubmitted]
          refine h.step (.submit privateKey receiver amount) fun mined => ⟨mined, ?_⟩
          exact Workbench.step_submit_of_ok hmade
  | startMining => exact h.startMining
  | stopMining => exact h.stopMining
  | mineRound now => exact h.mineRound now
  | receive peer role text => exact h.receive peer role text
  | start dial => exact h.start dial
  | connect dial address => exact h.connect dial address
  | welcome address => exact h.welcome address
  | forget peer => exact h.of_eq rfl rfl
  | shutdown => exact h.stopMining.of_eq rfl rfl

theorem ReachedFrom.foldl_obey (orders : List Order) :
    ReachedFrom w (orders.foldl Node.obey (n, submitted)).1
      (orders.foldl Node.obey (n, submitted)).2 := by
  induction orders generalizing n submitted with
  | nil => exact h
  | cons o rest ih => exact ih (h.obey o)

end

/-- Whatever a node is ordered to do, it does by tasks at its workbench. -/
theorem exists_tasks (n : Node) (orders : List Order) :
    ∃ tasks mined, (n.bench [] []).run tasks =
      (orders.foldl obey (n, [])).1.bench (orders.foldl obey (n, [])).2 mined :=
  ReachedFrom.foldl_obey ⟨[], [], rfl⟩ orders

/-- The payments that a node has in its candidate and in its queue. -/
def held (n : Node) : List Transaction :=
  Chain.payments ((n.candidate.map Candidate.transactions).getD []) ++ n.chain.pending

theorem pending_restore (store : BlockStore) : (store.restore .empty).chain.pending = [] := by
  rw [BlockStore.restore]
  split
  · rfl
  · rfl
  · split <;> rfl

/-- The workbench of a node that was just created is tidy. -/
theorem tidy_create {config : NodeConfig} {store : BlockStore} {n : Node}
    (h : create config store = .ok n) : (n.bench [] []).Tidy := by
  have hpending := pending_restore store
  rw [create] at h
  split at h
  · cases h
  · cases h
    refine ⟨?_, fun _ hnone => absurd hnone nofun, fun _ hb => absurd hb List.not_mem_nil, ?_⟩
    · rw [bench, hpending]
      exact fun _ htx => absurd htx List.not_mem_nil
    · rw [Workbench.flow, bench, hpending]
      rfl

section

variable {config : NodeConfig} {store : BlockStore} {n : Node} (h : create config store = .ok n)
  (orders : List Order)

include h

theorem exists_tidy :
    ∃ mined, Workbench.Tidy
      ((orders.foldl obey (n, [])).1.bench (orders.foldl obey (n, [])).2 mined) := by
  obtain ⟨tasks, mined, hrun⟩ := n.exists_tasks orders
  exact ⟨mined, hrun ▸ (tidy_create h).run tasks⟩

/-- What a node holds of the payments that were submitted to it is the last part of
them, in order and up to their ids. -/
theorem held_isSuffix :
    (orders.foldl obey (n, [])).1.held.map Transaction.effect <:+
      (orders.foldl obey (n, [])).2.map Transaction.effect := by
  obtain ⟨mined, htidy⟩ := exists_tidy h orders
  have hconserved := htidy.conserved
  rw [Workbench.flow, List.append_assoc, List.map_append] at hconserved
  exact ⟨_, hconserved⟩

/-- A node mines on its coinbase and payments, with their ids in the block. -/
theorem isBatch_of_candidate {k : Candidate}
    (hk : (orders.foldl obey (n, [])).1.candidate = some k) :
    Transaction.IsBatch k.index k.transactions := by
  obtain ⟨mined, htidy⟩ := exists_tidy h orders
  exact htidy.candidate k hk

end

end Node

end WorkLedger
