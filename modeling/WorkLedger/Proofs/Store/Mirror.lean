import WorkLedger.Proofs.Chain.Agreement
import WorkLedger.Proofs.Mining.Rounds
import WorkLedger.Proofs.Store.Files

/-!
# The store of a node

The store of a node holds blocks that agree with those of its chain. They need not be the same: the
store is left alone when a replacement leads to a chain of the same length that ends with the same
hash, and such a chain agrees with the old one unless hashed texts collide. All other changes of the
blocks are written to the store, at the end or all anew.
-/

namespace WorkLedger

/-- Blocks with indices that fit into the names of files, with finite amounts, and without texts
that collide. -/
structure Block.Usual (known : List Block) : Prop where
  small : ∀ b ∈ known, b.index.toNat < 10 ^ 10
  finite : ∀ b ∈ known, ∀ x ∈ b.amounts, x.isFinite = true
  free : CollisionFree known

theorem Block.Usual.of_subset {bs ds : List Block} (h : Usual ds) (hsub : bs ⊆ ds) : Usual bs where
  small b hb := h.small b (hsub hb)
  finite b hb := h.finite b (hsub hb)
  free := h.free.of_subset hsub

namespace Node

/-- One node has the same blocks, in its chain, in its store and put aside, as another one. -/
structure SameLedger (n m : Node) : Prop where
  blocks : m.chain.blocks = n.chain.blocks
  store : m.store = n.store
  staged : m.staged = n.staged

namespace SameLedger

theorem refl (n : Node) : SameLedger n n := ⟨rfl, rfl, rfl⟩

theorem trans {n m k : Node} (h : SameLedger n m) (h' : SameLedger m k) : SameLedger n k :=
  ⟨h'.blocks.trans h.blocks, h'.store.trans h.store, h'.staged.trans h.staged⟩

theorem announce (n : Node) : SameLedger n n.announce := by
  unfold Node.announce
  split <;> exact ⟨rfl, rfl, rfl⟩

theorem sendSummary (n : Node) (id : ℕ) : SameLedger n (n.sendSummary id) := by
  rw [Node.sendSummary]
  split <;> exact ⟨rfl, rfl, rfl⟩

theorem abandon (n : Node) : SameLedger n n.abandon := by
  unfold Node.abandon
  split <;> exact ⟨rfl, rfl, rfl⟩

theorem prepare (n : Node) : SameLedger n n.prepare := by
  unfold Node.prepare
  split <;> exact ⟨rfl, rfl, rfl⟩

theorem submit {n m : Node} {privateKey receiver : String} {amount : Float} {tx : Transaction}
    (h : n.submit privateKey receiver amount = .ok (tx, m)) : SameLedger n m := by
  obtain ⟨_, _, heq⟩ := map_eq_ok_iff.mp h
  cases heq
  exact ⟨rfl, rfl, rfl⟩

theorem welcome (n : Node) (address : String) : SameLedger n (n.welcome address) := by
  rw [Node.welcome]
  split
  next id peers _ =>
    have hadded : SameLedger n { n with peers } := ⟨rfl, rfl, rfl⟩
    exact hadded.trans (.sendSummary _ id)
  · exact .refl n

theorem connect (n : Node) (dial : Dialer) (address : String) :
    SameLedger n (((n.connect dial address).toOption.map Prod.snd).getD n) := by
  rw [Node.connect]
  dsimp only
  split
  · exact .refl n
  · cases n.peers.add (peerUrl address) .outbound with
    | error e => exact .refl n
    | ok x =>
        have hasked : SameLedger n ({ n with peers := x.2 }.sendText x.1 Request.summary.text) :=
          ⟨rfl, rfl, rfl⟩
        exact hasked.trans (.sendSummary _ x.1)

theorem connectAll (n : Node) (dial : Dialer) (addresses : List String) :
    SameLedger n (n.connectAll dial addresses) := by
  rw [Node.connectAll]
  induction addresses generalizing n with
  | nil => exact .refl n
  | cons address rest ih => exact (connect n dial address).trans (ih _)

theorem start (n : Node) (dial : Dialer) :
    SameLedger n ((n.start dial).toOption.getD n) := by
  rw [Node.start]
  split
  · exact .refl n
  · have hstarted : SameLedger n { n with started := true } := ⟨rfl, rfl, rfl⟩
    exact hstarted.trans (connectAll _ dial n.config.bootstrap)

end SameLedger

/-- The store of a node holds blocks that agree with those of its chain, as far as all of them are
known, and what is put aside keeps the chain sound. -/
structure Mirrors (known : List Block) (n : Node) : Prop where
  sound : n.chain.Sound
  seen : n.chain.blocks ⊆ known
  stored : ∃ bs, bs ⊆ known ∧ n.store.Keeps bs ∧ List.Forall₂ Block.Agree bs n.chain.blocks
  anchored : ∀ r, n.staged = some r → r.IsAnchored

theorem Mirrors.of_sameLedger {known : List Block} {n m : Node} (h : n.Mirrors known)
    (hsame : SameLedger n m) : m.Mirrors known where
  sound := h.sound.of_blocks_eq hsame.blocks
  seen := by
    rw [hsame.blocks]
    exact h.seen
  stored := by
    rw [hsame.blocks, hsame.store]
    exact h.stored
  anchored := by
    rw [hsame.staged]
    exact h.anchored

section

variable {known : List Block} (hknown : Block.Usual known)

include hknown

theorem fits_of_seen {c : Chain} (hsound : c.Sound) (hseen : c.blocks ⊆ known) : c.Fits :=
  hsound.fits_of_index_lt fun b hb => lt_trans (hknown.small b (hseen hb)) (by decide)

theorem inPlace_of_seen {c : Chain} (hsound : c.Sound) (hseen : c.blocks ⊆ known) : c.InPlace :=
  hsound.inPlace (fits_of_seen hknown hsound hseen)

variable {n m : Node} (h : n.Mirrors known)

include h

/-- Blocks that continue the chain are written behind the stored ones. -/
theorem Mirrors.grow {new : List Block} (hchain : m.chain.blocks = n.chain.blocks ++ new)
    (hsound : m.chain.Sound) (hseen : m.chain.blocks ⊆ known)
    (hstore : m.store = n.store.writeEach new) (hstaged : m.staged = n.staged) :
    m.Mirrors known := by
  obtain ⟨bs, hbs, hkeeps, hagree⟩ := h.stored
  have hagree' : List.Forall₂ Block.Agree (bs ++ new) m.chain.blocks := by
    rw [hchain]
    exact List.rel_append hagree (List.forall₂_same.mpr fun b _ => .refl b)
  have hnew : new ⊆ known := by
    rw [hchain] at hseen
    exact (List.append_subset.mp hseen).2
  have hall : bs ++ new ⊆ known := List.append_subset.mpr ⟨hbs, hnew⟩
  have hup : (bs ++ new).Pairwise fun x y => x.index < y.index :=
    (inPlace_of_seen hknown (hsound.of_agree hagree') hall).pairwise_index
  refine ⟨hsound, hseen, ⟨bs ++ new, hall, ?_, hagree'⟩, ?_⟩
  · rw [hstore]
    exact hkeeps.writeEach hup fun d hd => hknown.small d (hnew hd)
  · rw [hstaged]
    exact h.anchored

/-- Another chain is written anew, unless it has the mark of the old one. -/
theorem Mirrors.adopt {c : Chain} (hsound : c.Sound) (hseen : c.blocks ⊆ known) :
    (n.adopt c).Mirrors known := by
  obtain ⟨bs, hbs, hkeeps, hagree⟩ := h.stored
  have hplace := inPlace_of_seen hknown hsound hseen
  refine ⟨hsound, hseen, ?_, h.anchored⟩
  by_cases hmark : n.chain.mark = c.mark
  -- the last hash commits to all blocks, so what is stored agrees with the new chain too
  · have hstore : (n.adopt c).store = n.store := if_pos hmark
    have hsame : List.Forall₂ Block.Agree n.chain.blocks c.blocks :=
      Chain.forall₂_agree_of_tail (inPlace_of_seen hknown h.sound h.seen) hplace
        (hknown.free.of_subset (List.append_subset.mpr ⟨h.seen, hseen⟩))
        (congrArg Prod.fst hmark) (congrArg Prod.snd hmark)
    rw [hstore]
    exact ⟨bs, hbs, hkeeps, Block.forall₂_agree_trans hagree hsame⟩
  · have hstore : (n.adopt c).store = (n.store.refill c.blocks).store := if_neg hmark
    rw [hstore]
    refine ⟨c.blocks, hseen, ?_, List.forall₂_same.mpr fun b _ => .refl b⟩
    exact (hkeeps.refill hplace.pairwise_index fun d hd => hknown.small d (hseen hd)).2

theorem Mirrors.settle (hseen : n.settle.chain.blocks ⊆ known) : n.settle.Mirrors known := by
  cases hstaged : n.staged with
  | none =>
      rw [Node.settle, hstaged]
      exact h
  | some r =>
      have hsound : (n.chain.replace r).chain.Sound := h.sound.replace (h.anchored r hstaged)
      have hidle : Mirrors known { n with staged := none } :=
        ⟨h.sound, h.seen, h.stored, fun _ hr => absurd hr.symm (Option.some_ne_none _)⟩
      revert hseen
      rw [Node.settle, hstaged]
      dsimp only
      split
      · intro hseen
        rw [chain_announce] at hseen
        exact (hidle.adopt hknown hsound hseen).of_sameLedger (.announce _)
      · exact hidle.adopt hknown hsound

theorem Mirrors.stage {r : Replacement} (hr : r.IsAnchored)
    (hseen : (n.stage r).chain.blocks ⊆ known) : (n.stage r).Mirrors known := by
  have hwaiting : Mirrors known { n with staged := some r } := by
    refine ⟨h.sound, h.seen, h.stored, fun s hs => ?_⟩
    obtain rfl := Option.some.inj hs
    exact hr
  revert hseen
  rw [Node.stage]
  dsimp only
  split
  · exact fun _ => hwaiting.of_sameLedger ⟨rfl, rfl, rfl⟩
  · exact hwaiting.settle hknown

theorem Mirrors.endRound {now : UInt64} (hseen : (n.endRound now).chain.blocks ⊆ known) :
    (n.endRound now).Mirrors known := by
  rcases n.endRound_cases now with hgiven | ⟨_, found, c, _, _, happend, hround⟩
  · rw [hgiven]
    exact h.of_sameLedger (.abandon n)
  · rw [hround, chain_announce] at hseen
    rw [hround]
    have hblocks : c.blocks = n.chain.blocks ++ [found.block] := by
      rw [(Chain.append_eq_ok happend).2]
    refine Mirrors.of_sameLedger ?_ (.announce _)
    exact h.grow hknown hblocks (h.sound.append happend) hseen rfl rfl

theorem Mirrors.beginRound (hseen : n.beginRound.chain.blocks ⊆ known) :
    n.beginRound.Mirrors known := by
  have hresumed : Mirrors known { n with miner := n.miner.resume } :=
    h.of_sameLedger ⟨rfl, rfl, rfl⟩
  rw [Node.beginRound, (SameLedger.prepare _).blocks] at hseen
  exact (hresumed.settle hknown hseen).of_sameLedger (.prepare _)

theorem Mirrors.startMining (hseen : n.startMining.2.chain.blocks ⊆ known) :
    n.startMining.2.Mirrors known := by
  revert hseen
  rw [Node.startMining]
  split
  · exact fun _ => h
  · exact h.beginRound hknown

theorem Mirrors.stopMining (hseen : n.stopMining.2.chain.blocks ⊆ known) :
    n.stopMining.2.Mirrors known := by
  have hcancelled : Mirrors known { n with miner := n.miner.cancel } :=
    h.of_sameLedger ⟨rfl, rfl, rfl⟩
  exact (hcancelled.of_sameLedger (.abandon _)).settle hknown hseen

theorem Mirrors.mineRound {now : UInt64} (hmid : (n.endRound now).chain.blocks ⊆ known)
    (hseen : (n.mineRound now).chain.blocks ⊆ known) : (n.mineRound now).Mirrors known := by
  revert hseen
  rw [Node.mineRound]
  split
  · exact (h.endRound hknown hmid).beginRound hknown
  · exact fun _ => h

theorem Mirrors.takeBlocks {peer : ℕ} {blocks : List Block}
    (hseen : (n.takeBlocks peer blocks).chain.blocks ⊆ known) :
    (n.takeBlocks peer blocks).Mirrors known := by
  revert hseen
  rcases hresult : n.reconciler.reconcile n.chain blocks with ⟨outcome, c⟩
  simp only [Node.takeBlocks, hresult]
  split
  · exact fun _ => h
  · exact fun _ => h
  next count _ =>
    intro hseen
    rw [chain_announce] at hseen
    obtain ⟨rfl, rfl⟩ := Reconciler.eq_extend_of_reconcile hresult
    have hblocks := congrArg Chain.blocks (n.chain.chain_extend blocks)
    refine Mirrors.of_sameLedger ?_ (.announce _)
    refine h.grow hknown hblocks (h.sound.extend blocks) hseen ?_ rfl
    change n.store.writeEach _ = _
    rw [Chain.drop_extend]
  next r => exact h.stage hknown (Reconciler.isAnchored_of_reconcile hresult)
  next range => exact fun _ => h.of_sameLedger ⟨rfl, rfl, rfl⟩

theorem Mirrors.follow {peer : ℕ} {s : Response}
    (hseen : (n.follow peer s).chain.blocks ⊆ known) : (n.follow peer s).Mirrors known := by
  cases s with
  | summary first tail weight =>
      rw [Node.follow]
      split
      · exact h
      · exact h.of_sameLedger ⟨rfl, rfl, rfl⟩
      · exact h.of_sameLedger ⟨rfl, rfl, rfl⟩
  | chain blocks => exact h.takeBlocks hknown hseen
  | error message text => exact h
  | unknown kind => exact h

theorem Mirrors.receive {peer : ℕ} {role : Role} {text : String}
    (hseen : (n.receive peer role text).chain.blocks ⊆ known) :
    (n.receive peer role text).Mirrors known := by
  revert hseen
  unfold Node.receive
  split
  · exact fun _ => h.of_sameLedger ⟨rfl, rfl, rfl⟩
  next s _ => exact h.follow hknown
  · exact fun _ => h
  · split
    · exact fun _ => h.of_sameLedger ⟨rfl, rfl, rfl⟩
    · exact fun _ => h

end

/-- What a node becomes by an order. -/
def serve (n : Node) (o : Order) : Node := (obey (n, []) o).1

/-- The chain halfway through an order: between the end of a round of mining and the beginning of
the next one. -/
def halfway (n : Node) : Order → Chain
  | .mineRound now => (n.endRound now).chain
  | _ => n.chain

/-- All blocks that were in the chain of a node while it served some orders. -/
def history (n : Node) : List Order → List Block
  | [] => n.chain.blocks
  | o :: rest => n.chain.blocks ++ (n.halfway o).blocks ++ (n.serve o).history rest

theorem blocks_subset_history (n : Node) (orders : List Order) :
    n.chain.blocks ⊆ n.history orders := by
  cases orders with
  | nil => exact List.Subset.refl _
  | cons o rest =>
      rw [history, List.append_assoc]
      exact List.subset_append_left _ _

theorem history_subset (n : Node) {done orders : List Order} (h : done <+: orders) :
    n.history done ⊆ n.history orders := by
  induction done generalizing n orders with
  | nil => exact n.blocks_subset_history orders
  | cons o done ih =>
      obtain ⟨rest, rfl⟩ := h
      have hrest := ih (n.serve o) (List.prefix_append done rest)
      exact List.append_subset.mpr ⟨List.subset_append_left _ _,
        List.subset_append_of_subset_right _ hrest⟩

section

variable {known : List Block} (hknown : Block.Usual known) {n : Node} (h : n.Mirrors known)

include hknown h

/-- Serving an order keeps the mirror. -/
theorem Mirrors.serve {o : Order} (hmid : (n.halfway o).blocks ⊆ known)
    (hseen : (n.serve o).chain.blocks ⊆ known) : (n.serve o).Mirrors known := by
  cases o with
  | submit privateKey receiver amount =>
      rw [Node.serve, obey]
      split
      next tx m hsubmit => exact h.of_sameLedger (.submit hsubmit)
      · exact h
  | startMining => exact h.startMining hknown hseen
  | stopMining => exact h.stopMining hknown hseen
  | mineRound now => exact h.mineRound hknown hmid hseen
  | receive peer role text => exact h.receive hknown hseen
  | start dial => exact h.of_sameLedger (.start n dial)
  | connect dial address => exact h.of_sameLedger (.connect n dial address)
  | welcome address => exact h.of_sameLedger (.welcome n address)
  | forget peer => exact h.of_sameLedger ⟨rfl, rfl, rfl⟩
  | shutdown =>
      have hstopped : n.stopMining.2.Mirrors known := h.stopMining hknown hseen
      exact hstopped.of_sameLedger ⟨rfl, rfl, rfl⟩

theorem Mirrors.foldl_serve {orders : List Order} (hseen : n.history orders ⊆ known) :
    (orders.foldl Node.serve n).Mirrors known := by
  induction orders generalizing n with
  | nil => exact h
  | cons o rest ih =>
      rw [history, List.append_subset, List.append_subset] at hseen
      obtain ⟨⟨_, hmid⟩, hrest⟩ := hseen
      exact ih (h.serve hknown hmid (List.Subset.trans (blocks_subset_history _ rest) hrest)) hrest

end

/-- A node that was just created over an empty store. -/
structure Fresh (n : Node) : Prop where
  chain : n.chain = .start
  store : n.store.Keeps Chain.start.blocks
  staged : n.staged = none
  candidate : n.candidate = none

section

variable {config : NodeConfig} {store : BlockStore} (hempty : store.place = some (.folder []))

include hempty

theorem fresh_create {n : Node} (h : create config store = .ok n) : n.Fresh := by
  rw [create] at h
  split at h
  · cases h
  next hresult =>
    obtain ⟨hchain, hkeeps⟩ := BlockStore.keeps_restore hempty _ hresult
    cases h
    exact ⟨hchain, hkeeps, rfl, rfl⟩

theorem exists_create (hroom : 21 ≤ store.room) : ∃ n, create config store = .ok n := by
  have hresult := BlockStore.result_restore hempty .empty hroom
  rw [create]
  split
  next hfailed =>
    rw [hresult] at hfailed
    cases hfailed
  · exact ⟨_, rfl⟩

end

theorem Fresh.mirrors {n : Node} (h : n.Fresh) {known : List Block}
    (hseen : n.chain.blocks ⊆ known) : n.Mirrors known := by
  rw [h.chain] at hseen
  refine ⟨?_, ?_, ⟨Chain.start.blocks, hseen, h.store, ?_⟩, ?_⟩
  · rw [h.chain]
    exact Chain.sound_start
  · rw [h.chain]
    exact hseen
  · rw [h.chain]
    exact List.forall₂_same.mpr fun b _ => .refl b
  · rw [h.staged]
    exact nofun

end Node

end WorkLedger
