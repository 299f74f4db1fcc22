import WorkLedger.Chain.Queue
import WorkLedger.Proofs.Sync.Reconcile

/-!
# Sessions

A session is a chain together with the replacements that candidates have led to
so far. Its actions are all that can happen to the chain of a node, in any
order: blocks are appended, transactions are queued, taken out and put back,
candidates are reconciled under either policy, and a replacement is applied at
any later time, when the chain may be another one than it was decided on.

A session is sound when its chain is and its replacements are anchored. Every
action keeps a session sound (`sound_step`), so every session from the first
block on is sound (`sound_run`), and the blocks of its chain stand in place.
-/

namespace WorkLedger

/-- A chain, and the replacements that have been offered for it. -/
structure Session where
  chain : Chain
  offered : List Replacement

/-- What can happen in a session. -/
inductive Action where
  | append (b : Block)
  | enqueue (tx : Transaction)
  | drain
  | requeue (txs : List Transaction)
  | reconcile (policy : Reconciler) (candidate : List Block)
  /-- The replacement that was offered at this place is applied; it stays on
  offer. -/
  | replace (place : ℕ)

/-- The blocks that an action brings along. -/
def Action.blocks : Action → List Block
  | .append b => [b]
  | .reconcile _ candidate => candidate
  | _ => []

namespace Session

/-- The session that begins with the first block. -/
def start : Session := ⟨Chain.start, []⟩

/-- What a session becomes by an action. A block that is refused changes
nothing, and neither does a replacement that was never offered. -/
def step (s : Session) : Action → Session
  | .append b =>
    match s.chain.append b with
    | .ok longer => { s with chain := longer }
    | .error _ => s
  | .enqueue tx => { s with chain := s.chain.enqueue tx }
  | .drain => { s with chain := s.chain.drained }
  | .requeue txs => { s with chain := s.chain.requeue txs }
  | .reconcile policy candidate =>
    match policy.reconcile s.chain candidate with
    | (.replace r, c) => ⟨c, s.offered ++ [r]⟩
    | (_, c) => { s with chain := c }
  | .replace place =>
    match s.offered[place]? with
    | some r => { s with chain := (s.chain.replace r).chain }
    | none => s

/-- What a session becomes by a list of actions. -/
def run (s : Session) (actions : List Action) : Session := actions.foldl step s

theorem step_append (s : Session) (b : Block) :
    s.step (.append b) = s ∨
      s.chain.append b = .ok { s.chain with blocks := s.chain.blocks ++ [b] } ∧
        s.step (.append b) =
          ⟨{ s.chain with blocks := s.chain.blocks ++ [b] }, s.offered⟩ := by
  cases happend : s.chain.append b with
  | error e => exact Or.inl (by simp only [step, happend])
  | ok longer =>
      obtain ⟨_, rfl⟩ := Chain.append_eq_ok happend
      exact Or.inr ⟨rfl, by simp only [step, happend]⟩

/-- A candidate changes the chain as reconciling does, and only the replacement
that it leads to is offered in addition. -/
theorem step_reconcile (s : Session) (policy : Reconciler) (candidate : List Block) :
    (s.step (.reconcile policy candidate)).chain =
        (policy.reconcile s.chain candidate).2 ∧
      ∀ r ∈ (s.step (.reconcile policy candidate)).offered,
        r ∈ s.offered ∨ ∃ c, policy.reconcile s.chain candidate = (.replace r, c) := by
  rcases hresult : policy.reconcile s.chain candidate with ⟨outcome, c⟩
  cases outcome with
  | replace offer =>
      simp only [step, hresult, true_and]
      intro r hr
      rcases List.mem_append.mp hr with hold | hnew
      · exact Or.inl hold
      · rw [List.mem_singleton.mp hnew]
        exact Or.inr ⟨c, rfl⟩
  | discarded =>
      simp only [step, hresult, true_and]
      exact fun r hr => Or.inl hr
  | extended count =>
      simp only [step, hresult, true_and]
      exact fun r hr => Or.inl hr
  | requestRange range =>
      simp only [step, hresult, true_and]
      exact fun r hr => Or.inl hr

theorem step_replace (s : Session) (place : ℕ) :
    s.step (.replace place) = s ∨
      ∃ r ∈ s.offered, s.step (.replace place) = ⟨(s.chain.replace r).chain, s.offered⟩ := by
  cases hr : s.offered[place]? with
  | none => exact Or.inl (by simp only [step, hr])
  | some r => exact Or.inr ⟨r, List.mem_of_getElem? hr, by simp only [step, hr]⟩

/-- A session is sound when its chain is and everything offered is anchored. -/
structure Sound (s : Session) : Prop where
  chain : s.chain.Sound
  offered : ∀ r ∈ s.offered, r.IsAnchored

theorem sound_start : start.Sound :=
  ⟨Chain.sound_start, fun _ hr => absurd hr List.not_mem_nil⟩

/-- Every action keeps a session sound. -/
theorem sound_step {s : Session} (h : s.Sound) (a : Action) : (s.step a).Sound := by
  cases a with
  | append b =>
      rcases s.step_append b with hsame | ⟨happend, hlonger⟩
      · rw [hsame]
        exact h
      · rw [hlonger]
        exact ⟨h.chain.append happend, h.offered⟩
  | enqueue tx => exact ⟨h.chain.of_blocks_eq rfl, h.offered⟩
  | drain => exact ⟨h.chain.of_blocks_eq rfl, h.offered⟩
  | requeue txs => exact ⟨h.chain.of_blocks_eq rfl, h.offered⟩
  | reconcile policy candidate =>
      obtain ⟨hchain, hoffered⟩ := s.step_reconcile policy candidate
      constructor
      · rw [hchain]
        exact h.chain.reconcile policy candidate
      · intro r hr
        rcases hoffered r hr with hold | ⟨c, hresult⟩
        · exact h.offered r hold
        · exact Reconciler.isAnchored_of_reconcile hresult
  | replace place =>
      rcases s.step_replace place with hsame | ⟨r, hr, happlied⟩
      · rw [hsame]
        exact h
      · rw [happlied]
        exact ⟨h.chain.replace (h.offered r hr), h.offered⟩

/-- Every list of actions keeps a session sound. -/
theorem sound_run {s : Session} (h : s.Sound) (actions : List Action) :
    (s.run actions).Sound := by
  induction actions generalizing s with
  | nil => exact h
  | cons a rest ih => exact ih (sound_step h a)

/-- All blocks of a session, in its chain and on offer, have a property. -/
structure All (p : Block → Prop) (s : Session) : Prop where
  chain : ∀ b ∈ s.chain.blocks, p b
  offered : ∀ r ∈ s.offered, ∀ b ∈ r.blocks, p b

/-- A property of the blocks of a session and of those that an action brings
along is one of the blocks afterwards. -/
theorem all_step {p : Block → Prop} {s : Session} (h : s.All p) {a : Action}
    (ha : ∀ b ∈ a.blocks, p b) : (s.step a).All p := by
  cases a with
  | append b =>
      rcases s.step_append b with hsame | ⟨_, hlonger⟩
      · rw [hsame]
        exact h
      · rw [hlonger]
        refine ⟨?_, h.offered⟩
        intro x hx
        rcases List.mem_append.mp hx with hold | hnew
        · exact h.chain x hold
        · exact ha x hnew
  | enqueue tx => exact ⟨h.chain, h.offered⟩
  | drain => exact ⟨h.chain, h.offered⟩
  | requeue txs => exact ⟨h.chain, h.offered⟩
  | reconcile policy candidate =>
      obtain ⟨hchain, hoffered⟩ := s.step_reconcile policy candidate
      constructor
      · intro b hb
        rw [hchain] at hb
        rcases Reconciler.reconcile_chain policy s.chain candidate with hsame | hextended
        · rw [hsame] at hb
          exact h.chain b hb
        · rw [hextended] at hb
          rcases Chain.mem_extend hb with hold | hnew
          · exact h.chain b hold
          · exact ha b hnew
      · intro r hr b hb
        rcases hoffered r hr with hold | ⟨c, hresult⟩
        · exact h.offered r hold b hb
        · rw [Reconciler.blocks_of_reconcile hresult] at hb
          exact ha b hb
  | replace place =>
      rcases s.step_replace place with hsame | ⟨r, hr, happlied⟩
      · rw [hsame]
        exact h
      · rw [happlied]
        refine ⟨?_, h.offered⟩
        intro b hb
        rcases Chain.mem_replace hb with hold | hnew
        · exact h.chain b hold
        · exact h.offered r hr b hnew

theorem all_run {p : Block → Prop} {s : Session} (h : s.All p)
    {actions : List Action} (hactions : ∀ a ∈ actions, ∀ b ∈ a.blocks, p b) :
    (s.run actions).All p := by
  induction actions generalizing s with
  | nil => exact h
  | cons a rest ih =>
      have hstep := all_step h (hactions a List.mem_cons_self)
      exact ih hstep fun x hx => hactions x (List.mem_cons_of_mem a hx)

/-- After any session from the first block on, the blocks of the chain stand in
place, the chain is valid, and looking up an index gives the block at that
position, as long as no index is the largest word. -/
theorem inPlace_run (actions : List Action)
    (hindex : ∀ b ∈ (start.run actions).chain.blocks,
      b.index.toNat < UInt64.size - 1) :
    (start.run actions).chain.InPlace ∧ (start.run actions).chain.isValid = true ∧
      ∀ index, (start.run actions).chain.get? index =
        (start.run actions).chain.blocks[index.toNat]? := by
  have hsound := (sound_run sound_start actions).chain
  exact ⟨hsound.inPlace (hsound.fits_of_index_lt hindex), hsound.isValid, hsound.get?_eq⟩

/-- Two forks of a chain are offered, a splice and a whole chain; the whole
chain is adopted first and the splice late. -/
def lateSplice : List Action :=
  let trunk := Block.genesis.onTop 1
  let branch := trunk.onTop 2
  let other := Block.genesis.onTop 3
  [.append trunk, .reconcile ⟨false⟩ [trunk.onTop 1],
    .reconcile ⟨false⟩ [branch, branch.onTop 2],
    .reconcile ⟨true⟩ [Block.genesis, other, other.onTop 3], .drain, .replace 1,
    .requeue [], .replace 0]

theorem inPlace_run_lateSplice :
    (∀ b ∈ (start.run lateSplice).chain.blocks, b.index.toNat < UInt64.size - 1) ∧
      (start.run lateSplice).chain.InPlace ∧
      (start.run lateSplice).chain.isValid = true ∧
      ∀ index, (start.run lateSplice).chain.get? index =
        (start.run lateSplice).chain.blocks[index.toNat]? := by
  have hstart : start.All fun b => b.index.toNat < UInt64.size - 1 :=
    ⟨by decide, fun _ hr => absurd hr List.not_mem_nil⟩
  have hbrought : ∀ a ∈ lateSplice, ∀ b ∈ a.blocks,
      b.index.toNat < UInt64.size - 1 := by decide
  have hall := all_run hstart hbrought
  exact ⟨hall.chain, inPlace_run lateSplice hall.chain⟩

end Session

end WorkLedger
