import WorkLedger.Proofs.Chain.Stepwise
import WorkLedger.Proofs.Fallible
import WorkLedger.Proofs.Store.Mirror
import WorkLedger.Proofs.Sync.Delivery
import WorkLedger.Proofs.Sync.Wire

/-!
# Starting again from a store

Whatever a node was ordered to do, its store can be started from, and this yields a chain with the
same last block and the same weight, as long as all amounts are read back from their numerals. If
one is not, the hash of its block does not match what is read, and the store is refused.
-/

namespace WorkLedger

namespace Block

/-- The index and the hash of a block. -/
def tag (b : Block) : UInt64 × String := (b.index, b.hash)

theorem map_eq_of_agree {α : Type*} {f : Block → α} (hf : ∀ b d, Agree b d → f b = f d)
    {bs ds : List Block} (h : List.Forall₂ Agree bs ds) : bs.map f = ds.map f :=
  map_eq_of_forall₂ hf h

end Block

namespace Node

/-- The store of a node mirrors its chain. -/
structure Mirrored (n : Node) : Prop where
  stored : ∃ bs, n.store.load = .ok bs ∧ bs.map Block.tag = n.chain.blocks.map Block.tag
  names : ∃ f, n.store.entries = .ok f ∧ (Folder.names f).Pairwise (· < ·) ∧
    Folder.names f = n.chain.blocks.map fun b => BlockStore.fileName b.index
  restarts : ∀ c, ∃ d, n.store.restore c = ⟨n.store, d, .ok ()⟩ ∧
    d.tail?.map Block.tag = n.chain.tail?.map Block.tag ∧ d.weight = n.chain.weight
  refused : ∀ r e, (n.chain.replace r).result = .error e →
    (settle { n with staged := some r }).store = n.store

/-- A replacement that is refused leaves the store as it is. -/
theorem store_settle_of_error {n : Node} {r : Replacement} {e : ChainError}
    (h : (n.chain.replace r).result = .error e) :
    (settle { n with staged := some r }).store = n.store := by
  have hchain := (n.chain.replace_frame r).2 e h
  simp only [settle, h, adopt, hchain, if_true]

section

variable {known : List Block} (hknown : Block.Usual known)

include hknown

theorem Mirrors.mirrored {n : Node} (h : n.Mirrors known)
    (hread : ∀ b ∈ known, ∀ x ∈ b.amounts, Amount.ReadsBack x) : n.Mirrored := by
  obtain ⟨bs, hbs, hkeeps, hagree⟩ := h.stored
  have hsound : (Chain.ofBlocks bs).Sound := h.sound.of_agree hagree
  have hplace : (Chain.ofBlocks bs).InPlace := inPlace_of_seen hknown hsound hbs
  have hsmall : ∀ b ∈ bs, b.index.toNat < 10 ^ 10 := fun b hb => hknown.small b (hbs hb)
  have hback : ∀ b ∈ bs, b.ReadsBack := fun b hb x hx =>
    ⟨hknown.finite b (hbs hb) x hx, hread b (hbs hb) x hx⟩
  have htags : bs.map Block.tag = n.chain.blocks.map Block.tag :=
    Block.map_eq_of_agree (fun _ _ hbd => Prod.ext hbd.index hbd.hash) hagree
  have hstamps : bs.map Block.stamp = n.chain.blocks.map Block.stamp :=
    Block.map_eq_of_agree (fun _ _ hbd => Prod.ext hbd.hash hbd.difficulty) hagree
  have hnames : Folder.names (bs.map BlockStore.fileOf) =
      n.chain.blocks.map fun b => BlockStore.fileName b.index := by
    rw [Folder.names, List.map_map]
    exact Block.map_eq_of_agree (fun _ _ hbd => congrArg BlockStore.fileName hbd.index) hagree
  refine ⟨⟨bs, hkeeps.load_of_readsBack hsmall hback, htags⟩,
    ⟨_, hkeeps.entries, BlockStore.pairwise_names hplace.pairwise_index hsmall, hnames⟩,
    fun c => ⟨.ofBlocks bs, hkeeps.restore hsmall hback hsound c, ?_, ?_⟩,
    fun r e he => store_settle_of_error he⟩
  · rw [Chain.tail?, Chain.tail?, ← List.getLast?_map, ← List.getLast?_map]
    exact congrArg List.getLast? htags
  · exact Chain.weight_eq_of_stamps hsound (inPlace_of_seen hknown h.sound h.seen)
      (fits_of_seen hknown h.sound h.seen) hstamps

end

/-- After whatever orders, the store of a node mirrors its chain, if all amounts that were in the
chain are read back from their numerals. -/
theorem mirrored_foldl_serve {config : NodeConfig} {store : BlockStore} {n : Node}
    (hempty : store.place = some (.folder [])) (hcreate : create config store = .ok n)
    (orders : List Order) (husual : Block.Usual (n.history orders))
    (hread : ∀ b ∈ n.history orders, ∀ x ∈ b.amounts, Amount.ReadsBack x) :
    ∀ done, done <+: orders → (done.foldl serve n).Mirrored := by
  intro done hdone
  have hfresh := (fresh_create hempty hcreate).mirrors (n.blocks_subset_history orders)
  exact (hfresh.foldl_serve husual (n.history_subset hdone)).mirrored husual hread

theorem chain_settle {n : Node} {r : Replacement} (h : n.staged = some r) :
    n.settle.chain = (n.chain.replace r).chain := by
  simp only [settle, h]
  split
  · rw [chain_announce]
    rfl
  · rfl

section

variable {n : Node} {peer : ℕ} {blocks : List Block} (hidle : n.candidate = none)

include hidle

theorem chain_takeBlocks_of_replace {r : Replacement}
    (h : n.reconciler.reconcile n.chain blocks = (.replace r, n.chain)) :
    (n.takeBlocks peer blocks).chain = (n.chain.replace r).chain := by
  have hstaged : n.takeBlocks peer blocks = settle { n with staged := some r } := by
    simp only [takeBlocks, h, stage, isMining, hidle]
    rfl
  rw [hstaged, chain_settle rfl]

/-- A node that is not mining takes over blocks that oust its first one. -/
theorem blocks_takeBlocks_of_ousts {first : Block} (hfirst : n.chain.first? = some first)
    (h : Ousts first.hash blocks) : (n.takeBlocks peer blocks).chain.blocks = blocks := by
  have hresult := Reconciler.reconcile_of_ousts hfirst n.reconciler h
  rw [chain_takeBlocks_of_replace hidle hresult, ← Reconciler.deliver_of_replace hresult]
  exact Reconciler.blocks_deliver_of_ousts hfirst n.reconciler h

end

/-- Transactions that pay an amount. -/
def paying (amount : Float) : List Transaction := [⟨"", [], [⟨"owner", amount⟩]⟩]

/-- A block on top of the first one that pays an amount. -/
def paid (amount : Float) : Block :=
  .unmined 1 Block.genesis.hash 1 (paying amount) 0 "peer"

/-- A block that pays an amount, with any JSON value for the amount. -/
def paidJson (b : Block) (amount : Json) : Json :=
  .object [("index", .nat b.index.toNat), ("previousHash", .string b.previousHash),
    ("hash", .string b.hash), ("timestamp", .nat b.timestamp.toNat),
    ("difficulty", .nat b.difficulty.toNat), ("nonce", .nat b.nonce.toNat),
    ("minerId", .string b.minerId), ("transactions", .array [.object [("id", .string ""),
      ("txIns", .array []), ("txOuts", .array [.object [("address", .string "owner"),
        ("amount", amount)]])]])]

theorem reads_paidJson (b : Block) {j : Json} {amount : Float} (h : Decoder.amount.Reads j amount) :
    Block.decoder.Reads (paidJson b j) { b with transactions := paying amount } := by
  have hout : TxOut.decoder.Reads (.object [("address", .string "owner"), ("amount", j)])
      ⟨"owner", amount⟩ :=
    Record.reads_ofConstructor TxOut.mk
      |>.required "address" (by decide) (Decoder.reads_text "owner")
      |>.required "amount" (by decide) h
      |>.decoder
  have hins : (Decoder.list TxIn.decoder).Reads (.array []) [] := Decoder.reads_nil
  have htx := Record.reads_ofConstructor Transaction.mk
    |>.required "id" (by decide) (Decoder.reads_text "")
    |>.required "txIns" (by decide) hins
    |>.required "txOuts" (by decide) hout.singleton
    |>.decoder
  exact Record.reads_ofConstructor Block.mk
    |>.required "index" (by decide) (Decoder.reads_word64 b.index)
    |>.required "previousHash" (by decide) (Decoder.reads_text b.previousHash)
    |>.required "hash" (by decide) (Decoder.reads_text b.hash)
    |>.required "timestamp" (by decide) (Decoder.reads_word64 b.timestamp)
    |>.required "difficulty" (by decide) (Decoder.reads_word32 b.difficulty)
    |>.required "nonce" (by decide) (Decoder.reads_word64 b.nonce)
    |>.required "minerId" (by decide) (Decoder.reads_text b.minerId)
    |>.required "transactions" (by decide) htx.singleton
    |>.decoder

theorem reconcile_paid (policy : Reconciler) (amount : Float) :
    policy.reconcile .start [paid amount] =
      (.extended 1, .ofBlocks [Block.genesis, paid amount]) := by
  have hgenuine : (paid amount).isGenuine = true := Block.isGenuine_unmined _ _ _ _ _
  have hfollows : (paid amount).follows Block.genesis = true :=
    (Block.follows_iff _ _).mpr ⟨rfl, rfl, Block.hashMatches_unmined _ _ _ _ _ _⟩
  have hunknown : Reconciler.isKnown .start [paid amount] = false := rfl
  have hbelow : Chain.start.get? ((paid amount).index - 1) = some Block.genesis := by
    have hindex : (paid amount).index - 1 = 0 := show (1 : UInt64) - 1 = 0 by decide
    rw [hindex]
    rfl
  have hlinks : Reconciler.linksInto .start (paid amount) = true := by
    rw [Reconciler.linksInto, hbelow, Option.any_some, beq_iff_eq]
    rfl
  have hplace : Reconciler.placement .start Block.genesis (paid amount) (paid amount)
      [paid amount] = none := by
    rw [Reconciler.placement, hunknown, hlinks]
    rfl
  have hextend : Chain.start.extend [paid amount] =
      ⟨.ofBlocks [Block.genesis, paid amount], 1, none⟩ :=
    Chain.extend_eq_of_isChain (List.forall_mem_singleton.mpr hgenuine)
      (List.isChain_pair.mpr hfollows)
  have htail : Chain.start.tail? = some Block.genesis := rfl
  have hlast : [paid amount].getLast? = some (paid amount) := rfl
  rw [Reconciler.reconcile_of_tail policy htail rfl hlast rfl, hplace, hextend]

/-- A node that was just created takes such a block and writes it. -/
theorem Fresh.takePaid {n : Node} (h : n.Fresh) (peer : ℕ) (amount : Float) :
    (n.takeBlocks peer [paid amount]).chain = .ofBlocks [Block.genesis, paid amount] ∧
      (n.takeBlocks peer [paid amount]).store.Keeps [Block.genesis, paid amount] ∧
      (n.takeBlocks peer [paid amount]).candidate = none := by
  have hresult : n.reconciler.reconcile n.chain [paid amount] =
      (.extended 1, .ofBlocks [Block.genesis, paid amount]) := by
    rw [h.chain]
    exact reconcile_paid n.reconciler amount
  have hup : (Chain.start.blocks ++ [paid amount]).Pairwise fun x y => x.index < y.index :=
    List.pairwise_pair.mpr (show (0 : UInt64) < 1 by decide)
  have hkeeps := h.store.writeEach hup fun b hb => by
    rw [List.mem_singleton.mp hb]
    exact show (1 : UInt64).toNat < 10 ^ 10 by decide
  simp only [takeBlocks, hresult]
  refine ⟨chain_announce _, ?_, ?_⟩
  · rw [store_announce]
    exact hkeeps
  · rw [candidate_announce]
    exact h.candidate

/-- What is left of a reward after a payment of 45.13. -/
def change : Float := Float.ofBits 0x4027bd70a3d70a3c

example : Transaction.reward - 45.13 = change := by decide +kernel

/-- The blocks in the examples: the first one, another first one, and two on top of the first. -/
def knownBlocks : List Block :=
  [Block.genesis, paid Transaction.reward, Reconciler.foreign, paid change]

theorem usual_knownBlocks : Block.Usual knownBlocks where
  small := by
    simp only [knownBlocks, List.forall_mem_cons]
    exact ⟨show (0 : UInt64).toNat < 10 ^ 10 by decide, show (1 : UInt64).toNat < 10 ^ 10 by decide,
      show (0 : UInt64).toNat < 10 ^ 10 by decide, show (1 : UInt64).toNat < 10 ^ 10 by decide,
      fun _ hb => absurd hb List.not_mem_nil⟩
  finite := by
    have hreward : Transaction.reward.isFinite = true := by decide +kernel
    have hchange : change.isFinite = true := by decide +kernel
    simp only [knownBlocks, List.forall_mem_cons]
    exact ⟨nofun, fun x hx => List.mem_singleton.mp hx ▸ hreward, nofun,
      fun x hx => List.mem_singleton.mp hx ▸ hchange, fun _ hb => absurd hb List.not_mem_nil⟩
  free := by
    refine Block.collisionFree_of_nodup [[], paying Transaction.reward, paying change] ?_ ?_ ?_
    · have hmatches : ∀ b ∈ knownBlocks, b.hashMatches = true := by
        simp only [knownBlocks, List.forall_mem_cons]
        exact ⟨Block.hashMatches_unmined _ _ _ _ _ _, Block.hashMatches_unmined _ _ _ _ _ _,
          Block.hashMatches_unmined _ _ _ _ _ _, Block.hashMatches_unmined _ _ _ _ _ _,
          fun _ hb => absurd hb List.not_mem_nil⟩
      exact fun b hb => beq_iff_eq.mp (hmatches b hb)
    · simp only [knownBlocks, List.forall_mem_cons]
      exact ⟨List.mem_cons_self, List.mem_cons_of_mem _ List.mem_cons_self, List.mem_cons_self,
        List.mem_cons_of_mem _ (List.mem_cons_of_mem _ List.mem_cons_self),
        fun _ hb => absurd hb List.not_mem_nil⟩
    · simp only [knownBlocks, paid, Block.hash_genesis]
      decide +kernel

/-- A store without files. -/
def emptyStore : BlockStore := ⟨some (.folder []), 255⟩

/-- The settings of the nodes in the examples. -/
def sampleConfig : NodeConfig := ⟨1, false, "peer", "owner", []⟩

theorem exists_fresh : ∃ n, create sampleConfig emptyStore = .ok n ∧ n.Fresh := by
  obtain ⟨n, hn⟩ : ∃ n, create sampleConfig emptyStore = .ok n := exists_create rfl (by decide)
  exact ⟨n, hn, fresh_create rfl hn⟩

/-- A peer sends a text. -/
def delivery (text : String) : Order := .receive 0 .inbound text

theorem halfway_delivery (n : Node) (text : String) : n.halfway (delivery text) = n.chain := rfl

theorem serve_delivery (n : Node) {text : String} {blocks : List Block}
    (h : Frame.classify text = .response (.ok (.chain blocks))) :
    n.serve (delivery text) = n.takeBlocks 0 blocks := by
  simp only [serve, delivery, obey, receive, h, follow]

theorem finite_and_readsBack {x : Float} (hx : x ∈ (paid Transaction.reward).amounts) :
    x.isFinite = true ∧ Amount.ReadsBack x := by
  obtain rfl : x = Transaction.reward := List.mem_singleton.mp hx
  exact ⟨by decide +kernel, Amount.readsBack_reward⟩

theorem classify_paid : Frame.classify (Response.chain [paid Transaction.reward]).text =
    .response (.ok (.chain [paid Transaction.reward])) :=
  Response.classify_text nofun fun _ => finite_and_readsBack

theorem classify_foreign : Frame.classify (Response.chain [Reconciler.foreign]).text =
    .response (.ok (.chain [Reconciler.foreign])) :=
  Response.classify_text nofun nofun

/-- A peer brings a block on top of the first one, and then another first block. -/
def ousted : List Order :=
  [delivery (Response.chain [paid Transaction.reward]).text,
    delivery (Response.chain [Reconciler.foreign]).text]

/-- The blocks that were in the chain of a new node by then. -/
def oustedBlocks : List Block := [Block.genesis, paid Transaction.reward, Reconciler.foreign]

theorem readsBack_ousted : ∀ b ∈ oustedBlocks, ∀ x ∈ b.amounts, Amount.ReadsBack x := by
  simp only [oustedBlocks, List.forall_mem_cons]
  exact ⟨nofun, fun x hx => (finite_and_readsBack hx).2, nofun,
    fun _ hb => absurd hb List.not_mem_nil⟩

theorem Fresh.serve_ousted {n : Node} (h : n.Fresh) :
    n.history ousted ⊆ oustedBlocks ∧
      (ousted.foldl serve n).chain.blocks = [Reconciler.foreign] := by
  obtain ⟨hchain, -, hidle⟩ := h.takePaid 0 Transaction.reward
  have hpaid := n.serve_delivery classify_paid
  have hforeign := fun m : Node => m.serve_delivery classify_foreign
  have hend : ((n.takeBlocks 0 [paid Transaction.reward]).takeBlocks 0
      [Reconciler.foreign]).chain.blocks = [Reconciler.foreign] := by
    refine blocks_takeBlocks_of_ousts hidle ?_ Reconciler.ousts_foreign
    rw [hchain]
    rfl
  constructor
  · rw [ousted, history, history, history, halfway_delivery, halfway_delivery, hpaid, hforeign,
      hend, hchain, h.chain]
    have hstart := List.subset_append_left [Block.genesis]
      [paid Transaction.reward, Reconciler.foreign]
    have hgrown := List.subset_append_left [Block.genesis, paid Transaction.reward]
      [Reconciler.foreign]
    have hlast := List.subset_append_right [Block.genesis, paid Transaction.reward]
      [Reconciler.foreign]
    exact List.append_subset.mpr ⟨List.append_subset.mpr ⟨hstart, hstart⟩,
      List.append_subset.mpr ⟨List.append_subset.mpr ⟨hgrown, hgrown⟩, hlast⟩⟩
  · rw [ousted, List.foldl_cons, List.foldl_cons, List.foldl_nil, hpaid, hforeign, hend]

theorem mirrored_foldl_serve_ousted :
    ∃ n, emptyStore.place = some (.folder []) ∧ create sampleConfig emptyStore = .ok n ∧
      Block.Usual (n.history ousted) ∧
      (∀ b ∈ n.history ousted, ∀ x ∈ b.amounts, Amount.ReadsBack x) ∧
      (∀ done, done <+: ousted → (done.foldl serve n).Mirrored) ∧
      (ousted.foldl serve n).chain.blocks = [Reconciler.foreign] := by
  obtain ⟨n, hcreate, hfresh⟩ := exists_fresh
  obtain ⟨hhistory, hend⟩ := hfresh.serve_ousted
  have husual : Block.Usual (n.history ousted) :=
    usual_knownBlocks.of_subset (List.subset_append_of_subset_left [paid change] hhistory)
  have hread : ∀ b ∈ n.history ousted, ∀ x ∈ b.amounts, Amount.ReadsBack x :=
    fun b hb => readsBack_ousted b (hhistory hb)
  exact ⟨n, rfl, hcreate, husual, hread,
    mirrored_foldl_serve rfl hcreate ousted husual hread, hend⟩

/-- A frame with blocks, with any JSON value for them. -/
def chainJson (blocks : Json) : Json :=
  .object [("message", .string Envelope.chainKind), ("blocks", blocks)]

theorem classify_chainJson {j : Json} {blocks : List Block} (hne : j ≠ .null)
    (h : (Decoder.list Block.decoder).Reads j blocks) :
    Frame.classify (chainJson j).compact = .response (.ok (.chain blocks)) := by
  have hread : Envelope.decoder.Reads (chainJson j) (Response.chain blocks).toEnvelope :=
    Record.reads_ofConstructor Envelope.mk
      |>.optional "message" (by decide) (some Envelope.chainKind) Json.string
        (fun s _ => ⟨nofun, Decoder.reads_text s⟩)
      |>.optional "blocks" (by decide) (some blocks) (fun _ => j)
        (fun bs hbs => Option.some.inj hbs ▸ ⟨hne, h⟩)
      |>.optional "cumdiff" (by decide) none (fun w => .nat w.toNat) nofun
      |>.optional "error" (by decide) none Json.string nofun
      |>.optional "id1" (by decide) none id nofun
      |>.optional "id2" (by decide) none id nofun
      |>.decoder
  have hknown : (Response.chain blocks).IsKnown := nofun
  rw [Frame.classify_of_reads hread, Frame.ofEnvelope, Response.isResponse_toEnvelope hknown,
    Response.ofEnvelope_toEnvelope hknown]
  rfl

/-- What is read from the numeral of the change. -/
def misread : Float := Float.ofBits 0x4027bd70a3d70a3b

/-- The numeral `11.869999999999997` of the change, with some zeros behind it. -/
def changeNumeral (zeros : List Digit) : Numeral :=
  ⟨false, [1, 1], [8, 6, 9, 9, 9, 9, 9, 9, 9, 9, 9, 9, 9, 9, 7] ++ zeros, none⟩

theorem reads_misread : Decoder.amount.Reads (.amount change) misread := by
  have hnumeral : Amount.numeral? change = some (changeNumeral []) := by decide +kernel
  refine Decoder.reads_amount_of_numeral hnumeral ?_ (by decide +kernel)
  change Decimal.divided (Float.ofNat 11869999999999997) 15 = misread
  rw [Amount.divided_of_le _ (by decide)]
  decide +kernel

theorem reads_change : Decoder.amount.Reads (.number (changeNumeral [0, 0])) change := by
  refine Decoder.reads_number ?_ ?_ (by decide +kernel)
  · exact ⟨by decide, nofun⟩
  · change Decimal.divided (Float.ofNat 1186999999999999700) 17 = change
    rw [Amount.divided_of_le _ (by decide)]
    decide +kernel

/-- A text with a block that pays the change. -/
def changeText : String :=
  (chainJson (.array [paidJson (paid change) (.number (changeNumeral [0, 0]))])).compact

theorem classify_changeText :
    Frame.classify changeText = .response (.ok (.chain [paid change])) :=
  classify_chainJson nofun (reads_paidJson (paid change) reads_change).singleton

/-- What is read from the text of a block that pays the change. -/
def spoiled (b : Block) : Block :=
  if b.index = 0 then b else { b with transactions := paying misread }

theorem reads_spoiled :
    ∀ b ∈ [Block.genesis, paid change], Block.decoder.Reads b.toJson (spoiled b) := by
  simp only [List.forall_mem_cons]
  exact ⟨Block.genesis.reads_decoder nofun, reads_paidJson (paid change) reads_misread,
    fun _ hb => absurd hb List.not_mem_nil⟩

theorem isSequence_spoiled :
    Block.isSequence ([Block.genesis, paid change].map spoiled) = false := by
  simp only [paid, Block.hash_genesis]
  decide +kernel

/-- If some amount is not read back from its numeral, a node may store blocks that it cannot be
started from. -/
theorem not_mirrored_foldl_serve :
    ¬ ∀ (config : NodeConfig) (store : BlockStore) (n : Node) (orders : List Order),
      store.place = some (.folder []) → create config store = .ok n →
        Block.Usual (n.history orders) → (orders.foldl serve n).Mirrored := by
  intro hall
  obtain ⟨n, hcreate, hfresh⟩ := exists_fresh
  obtain ⟨hchain, hkeeps, -⟩ := hfresh.takePaid 0 change
  have hserve := n.serve_delivery classify_changeText
  have hsubset : [Block.genesis, paid change] ⊆ knownBlocks :=
    List.cons_subset_cons _
      (List.subset_append_right [paid Transaction.reward, Reconciler.foreign] [paid change])
  have hhistory : n.history [delivery changeText] ⊆ knownBlocks := by
    rw [history, history, halfway_delivery, hserve, hchain, hfresh.chain]
    have hstart := List.subset_append_left [Block.genesis] [paid change]
    exact List.Subset.trans (List.append_subset.mpr
      ⟨List.append_subset.mpr ⟨hstart, hstart⟩, List.Subset.refl _⟩) hsubset
  have hmirrored := hall sampleConfig emptyStore n _ rfl hcreate
    (usual_knownBlocks.of_subset hhistory)
  rw [List.foldl_cons, List.foldl_nil, hserve] at hmirrored
  have hsmall : ∀ b ∈ [Block.genesis, paid change], b.index.toNat < 10 ^ 10 := fun b hb =>
    usual_knownBlocks.small b (hsubset hb)
  -- the hash that was stored is that of the change, but the amount that is read is another one
  obtain ⟨e, he⟩ := BlockStore.restore_of_isSequence_eq_false
    (hkeeps.load hsmall (g := spoiled) reads_spoiled) isSequence_spoiled .empty
  obtain ⟨d, hd, -⟩ := hmirrored.restarts .empty
  rw [he] at hd
  cases hd

end Node

end WorkLedger
