import WorkLedger.Node.Mining
import WorkLedger.Proofs.Chain.Retarget
import WorkLedger.Proofs.Mining.Found

/-!
# Mined chains

A mining step takes what waits into a block of the next difficulty, mines it on the last block and
appends it; this is what a round of a node does to its chain (`blocks_endRound_prepare`). From the
first block on, any number of such steps leads to a chain whose difficulties follow its times
(`difficulty_mineAll`). As long as the clock is not too fast a chain of difficulty zero stays there,
and every step succeeds.
-/

namespace WorkLedger

/-- What a step of mining is given: the difficulty on the first block, the transactions that come
into the queue, whom the reward goes to, who mines, and the time. -/
structure MiningStep where
  initial : UInt32
  waiting : List Transaction
  address : String
  minerId : String
  now : UInt64

namespace Chain

/-- Mines a block of the next difficulty with all transactions that wait, and appends it. -/
def mineStep (c : Chain) (s : MiningStep) : Option Chain :=
  let queued := s.waiting.foldl enqueue c
  queued.tail?.bind fun tail =>
    ((Miner.create s.minerId (queued.nextDifficulty s.initial)).mine s.now (tail.index + 1)
      (queued.candidateTransactions (tail.index + 1) s.address) tail.hash).bind fun mined =>
        (queued.drained.append mined.block).toOption

/-- Mines blocks step by step, up to the last step. -/
def mineAll (c : Chain) : List MiningStep → Option Chain
  | [] => some c
  | s :: rest => (c.mineStep s).bind fun d => d.mineAll rest

theorem mineAll_cons (c : Chain) (s : MiningStep) (rest : List MiningStep) :
    c.mineAll (s :: rest) = (c.mineStep s).bind fun d => d.mineAll rest := rfl

theorem mineAll_append (c : Chain) (steps more : List MiningStep) :
    c.mineAll (steps ++ more) = (c.mineAll steps).bind fun d => d.mineAll more := by
  induction steps generalizing c with
  | nil => rfl
  | cons s rest ih =>
      rw [List.cons_append, mineAll_cons, mineAll_cons, Option.bind_assoc]
      simp only [ih]

theorem foldl_enqueue (c : Chain) (txs : List Transaction) :
    txs.foldl enqueue c = { c with pending := c.pending ++ txs } := by
  induction txs generalizing c with
  | nil => rw [List.append_nil]; rfl
  | cons tx rest ih =>
      rw [List.foldl_cons, ih]
      simp [enqueue]

/-- The transactions of the block that a mining step puts on a block. -/
def minedTransactions (c : Chain) (s : MiningStep) (tail : Block) : List Transaction :=
  { c with pending := c.pending ++ s.waiting }.candidateTransactions (tail.index + 1) s.address

section

variable {c d : Chain} {s : MiningStep}

/-- The block that a step mines is always taken, and it empties the queue. -/
theorem mineStep_of_tail? {tail : Block} (htail : c.tail? = some tail) :
    c.mineStep s = ((Miner.create s.minerId (c.nextDifficulty s.initial)).mine s.now
      (tail.index + 1) (c.minedTransactions s tail) tail.hash).map
        fun mined => ofBlocks (c.blocks ++ [mined.block]) := by
  have hqueued : tail? { c with pending := c.pending ++ s.waiting } = some tail := htail
  simp only [mineStep, foldl_enqueue, hqueued, Option.bind_some]
  change Option.bind ((Miner.create s.minerId (c.nextDifficulty s.initial)).mine s.now
    (tail.index + 1) (c.minedTransactions s tail) tail.hash) _ = _
  cases hmined : (Miner.create s.minerId (c.nextDifficulty s.initial)).mine s.now
      (tail.index + 1) (c.minedTransactions s tail) tail.hash with
  | none => rfl
  | some mined =>
      have happend := append_of_yields (c := ofBlocks c.blocks) htail
        (Miner.yields_of_mine hmined)
      rw [Option.bind_some]
      change Except.toOption ((ofBlocks c.blocks).append mined.block) = _
      rw [happend]
      rfl

/-- A step puts one block on the last one: it has the next difficulty and the time of the step. -/
theorem mineStep_eq_some (h : c.mineStep s = some d) : ∃ tail b, c.tail? = some tail ∧
    (Miner.create s.minerId (c.nextDifficulty s.initial)).Yields s.now (tail.index + 1)
      (c.minedTransactions s tail) tail.hash b ∧ d = ofBlocks (c.blocks ++ [b]) := by
  cases htail : c.tail? with
  | none =>
      have hqueued : tail? { c with pending := c.pending ++ s.waiting } = none := htail
      simp [mineStep, foldl_enqueue, hqueued] at h
  | some tail =>
      rw [mineStep_of_tail? htail] at h
      obtain ⟨mined, hmined, rfl⟩ := Option.map_eq_some_iff.mp h
      exact ⟨tail, mined.block, rfl, Miner.yields_of_mine hmined, rfl⟩

/-- A step without work to do succeeds. -/
theorem exists_mineStep (hne : c.blocks ≠ []) (hnext : c.nextDifficulty s.initial = 0) :
    ∃ b, b.difficulty = 0 ∧ c.mineStep s = some (ofBlocks (c.blocks ++ [b])) := by
  have hstep := mineStep_of_tail? (s := s) (List.getLast?_eq_some_getLast hne)
  rw [hnext, Miner.mine_of_difficulty_eq_zero] at hstep
  exact ⟨_, rfl, hstep⟩

theorem Sound.mineStep (hc : c.Sound) (h : c.mineStep s = some d) : d.Sound := by
  obtain ⟨tail, b, htail, hyields, rfl⟩ := mineStep_eq_some h
  exact (hc.append (append_of_yields htail hyields)).of_blocks_eq rfl

theorem Retargets.mineStep (hretargets : c.Retargets) (hc : c.Sound) (hfits : c.Fits)
    (h : c.mineStep s = some d) : d.Retargets := by
  obtain ⟨tail, b, htail, hyields, rfl⟩ := mineStep_eq_some h
  exact hretargets.append (hc.inPlace hfits) hfits hyields.difficulty

theorem timestamps_mineStep (h : c.mineStep s = some d) :
    d.blocks.map Block.timestamp = c.blocks.map Block.timestamp ++ [s.now] := by
  obtain ⟨tail, b, -, hyields, rfl⟩ := mineStep_eq_some h
  rw [blocks_ofBlocks, List.map_append, List.map_singleton, hyields.timestamp]

theorem isPrefix_mineStep (h : c.mineStep s = some d) : c.blocks <+: d.blocks := by
  obtain ⟨tail, b, -, -, rfl⟩ := mineStep_eq_some h
  exact List.prefix_append c.blocks [b]

end

section

variable {c d : Chain} {steps : List MiningStep}

/-- The blocks that were mined have the times of the steps. -/
theorem timestamps_mineAll (h : c.mineAll steps = some d) :
    d.blocks.map Block.timestamp =
      c.blocks.map Block.timestamp ++ steps.map MiningStep.now := by
  induction steps generalizing c with
  | nil =>
      obtain rfl := Option.some.inj h
      rw [List.map_nil, List.append_nil]
  | cons s rest ih =>
      obtain ⟨longer, hstep, hrest⟩ := Option.bind_eq_some_iff.mp h
      rw [ih hrest, timestamps_mineStep hstep, List.map_cons, List.append_assoc]
      rfl

theorem length_mineAll (h : c.mineAll steps = some d) :
    d.blocks.length = c.blocks.length + steps.length := by
  have htimes := congrArg List.length (timestamps_mineAll h)
  simpa using htimes

theorem isPrefix_mineAll (h : c.mineAll steps = some d) : c.blocks <+: d.blocks := by
  induction steps generalizing c with
  | nil =>
      obtain rfl := Option.some.inj h
      exact List.prefix_rfl
  | cons s rest ih =>
      obtain ⟨longer, hstep, hrest⟩ := Option.bind_eq_some_iff.mp h
      exact (isPrefix_mineStep hstep).trans (ih hrest)

theorem Fits.of_mineAll (hfits : d.Fits) (h : c.mineAll steps = some d) : c.Fits :=
  Nat.lt_of_le_of_lt (isPrefix_mineAll h).length_le hfits

theorem Sound.mineAll (hc : c.Sound) (h : c.mineAll steps = some d) : d.Sound := by
  induction steps generalizing c with
  | nil =>
      obtain rfl := Option.some.inj h
      exact hc
  | cons s rest ih =>
      obtain ⟨longer, hstep, hrest⟩ := Option.bind_eq_some_iff.mp h
      exact ih (hc.mineStep hstep) hrest

theorem Retargets.mineAll (hretargets : c.Retargets) (hc : c.Sound) (hfits : d.Fits)
    (h : c.mineAll steps = some d) : d.Retargets := by
  induction steps generalizing c with
  | nil =>
      obtain rfl := Option.some.inj h
      exact hretargets
  | cons s rest ih =>
      obtain ⟨longer, hstep, hrest⟩ := Option.bind_eq_some_iff.mp h
      exact ih (hretargets.mineStep hc (hfits.of_mineAll h) hstep) (hc.mineStep hstep) hrest

end

theorem retargets_start : start.Retargets := by
  intro n b next hpos hb _
  have hlt : n < 1 := (List.getElem?_eq_some_iff.mp hb).1
  omega

/-- On the first block the difficulty is the given one. -/
theorem difficulty_mineAll_cons {s : MiningStep} {rest : List MiningStep} {c : Chain}
    (h : start.mineAll (s :: rest) = some c) :
    ∃ b, c.blocks[1]? = some b ∧ b.difficulty = s.initial := by
  obtain ⟨longer, hstep, hrest⟩ := Option.bind_eq_some_iff.mp h
  obtain ⟨tail, b, -, hyields, rfl⟩ := mineStep_eq_some hstep
  refine ⟨b, List.prefix_iff_getElem?.mp (isPrefix_mineAll hrest) 1 (Nat.lt_succ_self 1), ?_⟩
  rw [hyields.difficulty]
  rfl

/-- If all difficulties may be zero and the clock is not too fast, every step succeeds. -/
theorem exists_mineAll_of_onTime {steps : List MiningStep}
    (hinitial : ∀ s ∈ steps, s.initial = 0)
    (htimes : OnTime (Block.genesis.timestamp :: steps.map MiningStep.now))
    (hfits : steps.length + 1 < UInt64.size) :
    ∃ c, start.mineAll steps = some c ∧ ∀ b ∈ c.blocks, b.difficulty = 0 := by
  induction steps using List.reverseRecOn with
  | nil =>
      refine ⟨start, rfl, fun b hb => ?_⟩
      rw [List.mem_singleton.mp hb]
      rfl
  | append_singleton steps s ih =>
      rw [List.map_append, ← List.cons_append] at htimes
      rw [List.length_append, List.length_singleton] at hfits
      obtain ⟨c, hc, hzero⟩ := ih (fun x hx => hinitial x (List.mem_append_left _ hx))
        (htimes.of_isPrefix (List.prefix_append _ _)) (Nat.lt_of_succ_lt hfits)
      have hlength : c.blocks.length = 1 + steps.length := length_mineAll hc
      have hcfits : c.Fits := by
        rw [Fits, hlength]
        omega
      have hplace := (sound_start.mineAll hc).inPlace hcfits
      have hbefore : OnTime (c.blocks.map Block.timestamp) := by
        rw [timestamps_mineAll hc]
        exact htimes.of_isPrefix (List.prefix_append _ _)
      have hnext : c.nextDifficulty s.initial = 0 := by
        rw [nextDifficulty_eq hplace (List.getLast?_eq_some_getLast hplace.ne_nil),
          adjustedDifficulty_eq_zero hplace hcfits hzero hbefore,
          hinitial s (List.mem_append_right _ (List.mem_singleton_self s)), ite_self]
      obtain ⟨b, hb, hstep⟩ := exists_mineStep hplace.ne_nil hnext
      refine ⟨ofBlocks (c.blocks ++ [b]), ?_, ?_⟩
      · rw [mineAll_append, hc, Option.bind_some, mineAll_cons, hstep]
        rfl
      · intro x hx
        rcases List.mem_append.mp hx with hold | hnew
        · exact hzero x hold
        · rw [List.mem_singleton.mp hnew]
          exact hb

/-- A chain that was mined from the first block on stands in place and has the times of its steps,
and its second block has the difficulty of the first step. From there on the difficulties follow the
times: at every multiple of ten the time of an interval adjusts the difficulty, and nowhere else it
changes. So, whatever the times are, the difficulty of a block differs from that of the second one
by a tenth of its position at most. -/
theorem difficulty_mineAll {steps : List MiningStep} {c : Chain}
    (h : start.mineAll steps = some c) (hfits : c.Fits) :
    c.InPlace ∧
      c.blocks.map Block.timestamp = Block.genesis.timestamp :: steps.map MiningStep.now ∧
      (∀ s ∈ steps.head?, ∃ b, c.blocks[1]? = some b ∧ b.difficulty = s.initial) ∧
      c.Retargets ∧
      ∀ n first b, 1 ≤ n → c.blocks[1]? = some first → c.blocks[n]? = some b →
        b.difficulty.toNat ≤ first.difficulty.toNat + n / 10 ∧
          first.difficulty.toNat ≤ b.difficulty.toNat + n / 10 := by
  have hretargets := retargets_start.mineAll sound_start hfits h
  refine ⟨(sound_start.mineAll h).inPlace hfits, timestamps_mineAll h, ?_, hretargets, ?_⟩
  · intro s hs
    obtain ⟨rest, rfl⟩ := List.head?_eq_some_iff.mp hs
    exact difficulty_mineAll_cons h
  · intro n first b hpos hfirst hb
    exact hretargets.drift hfirst hpos hb

/-- Ten steps, a minute each: the last of them is the first one after an interval. -/
def tenMinutes : List MiningStep :=
  (List.range 10).map fun n =>
    ⟨0, [], "shop", "miner", Block.genesis.timestamp + 60000 * UInt64.ofNat (n + 1)⟩

theorem onTime_tenMinutes :
    OnTime (Block.genesis.timestamp :: tenMinutes.map MiningStep.now) := by
  intro n opening last hopening hlast
  have hlt : n + 9 < 11 := (List.getElem?_eq_some_iff.mp hlast).1
  obtain rfl | rfl : n = 0 ∨ n = 1 := by omega
  · obtain rfl := Option.some.inj hopening
    obtain rfl := Option.some.inj hlast
    decide
  · obtain rfl := Option.some.inj hopening
    obtain rfl := Option.some.inj hlast
    decide

theorem difficulty_mineAll_tenMinutes :
    ∃ c, start.mineAll tenMinutes = some c ∧ c.Fits ∧ c.blocks.length = 11 ∧ c.InPlace ∧
      (∃ b, c.blocks[1]? = some b ∧ b.difficulty = 0) ∧ c.Retargets ∧
      ∀ n first b, 1 ≤ n → c.blocks[1]? = some first → c.blocks[n]? = some b →
        b.difficulty.toNat ≤ first.difficulty.toNat + n / 10 ∧
          first.difficulty.toNat ≤ b.difficulty.toNat + n / 10 := by
  obtain ⟨c, hc, -⟩ := exists_mineAll_of_onTime (by decide) onTime_tenMinutes (by decide)
  have hlength : c.blocks.length = 11 := length_mineAll hc
  have hfits : c.Fits := by
    rw [Fits, hlength]
    decide
  obtain ⟨hplace, -, hfirst, hretargets, hdrift⟩ := difficulty_mineAll hc hfits
  exact ⟨c, hc, hfits, hlength, hplace, hfirst _ rfl, hretargets, hdrift⟩

end Chain

namespace Node

/-- The mining step that a round of a node is. -/
def miningStep (n : Node) (now : UInt64) : MiningStep :=
  ⟨n.config.initialDifficulty, [], n.config.rewardAddress, n.miner.id, now⟩

theorem blocks_abandon (n : Node) : n.abandon.chain.blocks = n.chain.blocks := by
  unfold abandon
  split <;> rfl

/-- A round in which nothing else happens is a mining step on the chain, or leaves its blocks. -/
theorem blocks_endRound_prepare (n : Node) (now : UInt64) (hrunning : n.miner.cancelled = false) :
    (n.prepare.endRound now).chain.blocks =
      ((n.chain.mineStep (n.miningStep now)).map Chain.blocks).getD n.chain.blocks := by
  cases htail : n.chain.tail? with
  | none =>
      have hstep : n.chain.mineStep (n.miningStep now) = none := by
        simp [Chain.mineStep, miningStep, htail]
      rw [hstep]
      simp [prepare, candidate?, endRound, htail]
  | some tail =>
      have hminer : n.miner.withDifficulty (n.chain.nextDifficulty n.config.initialDifficulty) =
          Miner.create n.miner.id (n.chain.nextDifficulty n.config.initialDifficulty) := by
        rw [Miner.withDifficulty, hrunning]
        rfl
      have htxs : n.chain.minedTransactions (n.miningStep now) tail =
          n.chain.candidateTransactions (tail.index + 1) n.config.rewardAddress := by
        rw [Chain.minedTransactions, miningStep, List.append_nil]
      rw [Chain.mineStep_of_tail? htail, htxs]
      simp only [prepare, candidate?, htail, Option.map_some, hminer, endRound, miningStep]
      cases hmined : (Miner.create n.miner.id
          (n.chain.nextDifficulty n.config.initialDifficulty)).mine now (tail.index + 1)
          (n.chain.candidateTransactions (tail.index + 1) n.config.rewardAddress) tail.hash with
      | none => exact blocks_abandon _
      | some mined =>
          have happend := Chain.append_of_yields (c := n.chain.drained) htail
            (Miner.yields_of_mine hmined)
          simp only [happend, chain_announce]
          rfl

end Node

end WorkLedger
