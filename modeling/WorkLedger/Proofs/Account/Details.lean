import WorkLedger.Proofs.Account.Answers
import WorkLedger.Proofs.Transaction.IdText

/-!
# Blocks with resolved inputs

Asking a chain for a block with an index only reads the chain, and has three outcomes. If no block
has the index there is none. If an input of the block points at no output of the chain, the answer
is the first such input, in the order of the block. Otherwise the answer is the block with each
input showing the address and the amount of the output that it points at, whatever it showed before,
and with nothing else changed (`details_outcome`). What inputs show is not hashed, so the answer has
the hash of the block, and its transactions have their ids.
-/

namespace WorkLedger

/-- An output stands at a point of a chain. -/
def Chain.Holds (c : Chain) (x : OutPoint) (o : TxOut) : Prop :=
  ∃ b tx, c.blocks[x.block.toNat]? = some b ∧ b.transactions[x.tx.toNat]? = some tx ∧
    tx.outs[x.out.toNat]? = some o

/-- An input points at no output of a chain. -/
def TxIn.Dangles (c : Chain) (i : TxIn) : Prop := ∀ o, ¬ c.Holds i.point o

/-- An input shows the output that another one with the same point and signature points at. -/
structure TxIn.ResolvesTo (c : Chain) (i j : TxIn) : Prop where
  point : j.point = i.point
  signature : j.signature = i.signature
  shown : ∃ o, c.Holds i.point o ∧ j.address = some o.address ∧ j.amount = some o.amount

/-- A transaction is another one with its inputs resolved. -/
structure Transaction.ResolvesTo (c : Chain) (tx ux : Transaction) : Prop where
  id : ux.id = tx.id
  ins : List.Forall₂ (TxIn.ResolvesTo c) tx.ins ux.ins
  outs : ux.outs = tx.outs

/-- A block is another one with the inputs of its transactions resolved. -/
structure Block.ResolvesTo (c : Chain) (b d : Block) : Prop where
  index : d.index = b.index
  previousHash : d.previousHash = b.previousHash
  hash : d.hash = b.hash
  timestamp : d.timestamp = b.timestamp
  difficulty : d.difficulty = b.difficulty
  nonce : d.nonce = b.nonce
  minerId : d.minerId = b.minerId
  transactions : List.Forall₂ (Transaction.ResolvesTo c) b.transactions d.transactions

section

variable {c : Chain}

theorem findSome?_flatMap {α β γ : Type*} (l : List α) (g : α → List β) (f : β → Option γ) :
    (l.flatMap g).findSome? f = l.findSome? fun x => (g x).findSome? f := by
  induction l with
  | nil => rfl
  | cons x l ih =>
      rw [List.flatMap_cons, List.findSome?_append, ih, List.findSome?_cons]
      cases (g x).findSome? f <;> rfl

namespace Transaction.ResolvesTo

variable {tx ux : Transaction}

/-- What inputs show is no part of the content of a transaction. -/
theorem content_eq (h : tx.ResolvesTo c ux) : ux.content = tx.content := by
  have hins : tx.ins.map TxIn.content = ux.ins.map TxIn.content :=
    map_eq_of_forall₂ (fun _ _ hij => Prod.ext hij.point.symm hij.signature.symm) h.ins
  rw [content, content, h.id, hins, h.outs]

theorem payloadChars_eq (h : tx.ResolvesTo c ux) : ux.payloadChars = tx.payloadChars := by
  rw [← chars_content, ← chars_content, h.content_eq]

theorem idChars_eq (h : tx.ResolvesTo c ux) (block : UInt64) :
    ux.idChars block = tx.idChars block := by
  have hpoints : tx.ins.map TxIn.point = ux.ins.map TxIn.point :=
    map_eq_of_forall₂ (fun _ _ hij => hij.point.symm) h.ins
  rw [idChars_eq_intercalate, idChars_eq_intercalate,
    idParts_eq_of_content hpoints.symm (congrArg (List.map TxOut.content) h.outs)]

end Transaction.ResolvesTo

/-- A block with its inputs resolved has the hash of the block. -/
theorem Block.ResolvesTo.contentHash_eq {b d : Block} (h : b.ResolvesTo c d) :
    d.contentHash = b.contentHash := by
  have hdigest : d.digest = b.digest := by
    have hpayload := map_eq_of_forall₂ (fun _ _ htx => htx.payloadChars_eq.symm) h.transactions
    rw [digest, digest, digestOf, digestOf, payloadsText, payloadsText, List.flatMap_def,
      List.flatMap_def, hpayload]
  simp only [contentHash, hashWith, headerText, headerChars, h.index, h.previousHash, h.timestamp,
    h.difficulty, h.nonce, hdigest]

end

namespace Chain

variable {c : Chain} (hindexed : c.Indexed)

include hindexed

theorem Indexed.get?_eq_some_iff {index : UInt64} {b : Block} :
    c.get? index = some b ↔ b ∈ c.blocks ∧ b.index = index := by
  constructor
  · intro h
    obtain ⟨hposition, hindex⟩ := Option.filter_eq_some_iff.mp h
    exact ⟨List.mem_of_getElem? hposition, eq_of_beq hindex⟩
  · rintro ⟨hb, rfl⟩
    obtain ⟨i, hi⟩ := List.getElem?_of_mem hb
    exact hindexed.get?_eq hi

theorem Indexed.get?_eq_getElem? (index : UInt64) : c.get? index = c.blocks[index.toNat]? := by
  cases hb : c.blocks[index.toNat]? with
  | none => rw [get?, hb]; rfl
  | some b =>
      have hindex : b.index = index := UInt64.toNat_inj.mp (hindexed _ _ hb)
      rw [← hindex] at hb ⊢
      exact hindexed.get?_eq hb

theorem Indexed.output?_eq_some_iff {x : OutPoint} {o : TxOut} :
    c.output? x = some o ↔ c.Holds x o := by
  simp only [output?, hindexed.get?_eq_getElem?, Option.bind_eq_some_iff, Holds]
  constructor
  · rintro ⟨b, hb, tx, htx, ho⟩
    exact ⟨b, tx, hb, htx, ho⟩
  · rintro ⟨b, tx, hb, htx, ho⟩
    exact ⟨b, hb, tx, htx, ho⟩

theorem Indexed.output?_eq_none_iff {i : TxIn} : c.output? i.point = none ↔ i.Dangles c := by
  rw [Option.eq_none_iff_forall_ne_some]
  simp only [TxIn.Dangles, ne_eq, hindexed.output?_eq_some_iff]

theorem Indexed.resolveInput_eq_ok_iff {index : UInt64} {i j : TxIn} :
    c.resolveInput index i = .ok j ↔ i.ResolvesTo c j := by
  rw [resolveInput]
  constructor
  · intro h
    split at h
    next o ho =>
      cases h
      exact ⟨rfl, rfl, o, hindexed.output?_eq_some_iff.mp ho, rfl, rfl⟩
    next => cases h
  · rintro ⟨hpoint, hsignature, o, ho, haddress, hamount⟩
    rw [hindexed.output?_eq_some_iff.mpr ho]
    obtain ⟨_, _, _, _⟩ := j
    obtain rfl := hpoint
    obtain rfl := hsignature
    obtain rfl := haddress
    obtain rfl := hamount
    rfl

/-- Only an input that dangles is not resolved, and then it is what the failure tells. -/
theorem Indexed.failure?_resolveInput {index : UInt64} {i : TxIn} {e : DanglingInput} :
    failure? (c.resolveInput index i) = some e ↔ i.Dangles c ∧ e = ⟨i.point, index⟩ := by
  rw [← hindexed.output?_eq_none_iff, resolveInput]
  cases c.output? i.point <;> simp [failure?, eq_comm]

theorem Indexed.resolveTransaction_eq_ok_iff {index : UInt64} {tx ux : Transaction} :
    c.resolveTransaction index tx = .ok ux ↔ tx.ResolvesTo c ux := by
  simp only [resolveTransaction, map_eq_ok_iff, mapM_eq_ok_iff, hindexed.resolveInput_eq_ok_iff]
  constructor
  · rintro ⟨ins, hins, rfl⟩
    exact ⟨rfl, hins, rfl⟩
  · rintro ⟨hid, hins, houts⟩
    refine ⟨ux.ins, hins, ?_⟩
    rw [← hid, ← houts]

/-- The answer is a block exactly if it is the one with the index, with its inputs resolved. -/
theorem Indexed.details_eq_ok_iff {index : UInt64} {d : Block} :
    c.details index = .ok (some d) ↔ ∃ b ∈ c.blocks, b.index = index ∧ b.ResolvesTo c d := by
  have hfound : ∀ b : Block, (∃ txs, b.transactions.mapM (c.resolveTransaction index) = .ok txs ∧
      { b with transactions := txs } = d) ↔ b.ResolvesTo c d := by
    intro b
    simp only [mapM_eq_ok_iff, hindexed.resolveTransaction_eq_ok_iff]
    constructor
    · rintro ⟨txs, htxs, rfl⟩
      exact ⟨rfl, rfl, rfl, rfl, rfl, rfl, rfl, htxs⟩
    · rintro ⟨hindex, hprevious, hhash, htime, hdifficulty, hnonce, hminer, htxs⟩
      refine ⟨d.transactions, htxs, ?_⟩
      rw [← hindex, ← hprevious, ← hhash, ← htime, ← hdifficulty, ← hnonce, ← hminer]
  simp only [← and_assoc, ← hindexed.get?_eq_some_iff]
  rw [details]
  cases c.get? index with
  | none => simp
  | some b => simp only [map_eq_ok_iff, Option.some.injEq, hfound, exists_eq_left']

theorem Indexed.details_eq_none_iff {index : UInt64} :
    c.details index = .ok none ↔ ∀ b ∈ c.blocks, b.index ≠ index := by
  have hnone : c.get? index = none ↔ ∀ b ∈ c.blocks, b.index ≠ index := by
    rw [Option.eq_none_iff_forall_ne_some]
    simp only [ne_eq, hindexed.get?_eq_some_iff, not_and]
  rw [← hnone, details]
  cases c.get? index with
  | none => simp
  | some b => simp [map_eq_ok_iff]

/-- Going through a block fails with the first input that points nowhere. -/
theorem Indexed.details_eq_error_iff {index : UInt64} {e : DanglingInput} :
    c.details index = .error e ↔ ∃ b ∈ c.blocks, b.index = index ∧ ∃ before i after,
      b.transactions.flatMap Transaction.ins = before ++ i :: after ∧
        (∀ j ∈ before, ¬ j.Dangles c) ∧ i.Dangles c ∧ e = ⟨i.point, index⟩ := by
  have hfirst : failure? (c.details index) = (c.get? index).bind fun b =>
      (b.transactions.flatMap Transaction.ins).findSome? fun i =>
        failure? (c.resolveInput index i) := by
    rw [details]
    cases c.get? index with
    | none => rfl
    | some b => simp only [failure?_map, failure?_mapM, resolveTransaction, findSome?_flatMap,
        Option.bind_some]
  have hnone : ∀ j : TxIn, failure? (c.resolveInput index j) = none ↔ ¬ j.Dangles c := by
    intro j
    rw [Option.eq_none_iff_forall_ne_some]
    simp [hindexed.failure?_resolveInput]
  rw [← failure?_eq_some_iff, hfirst, Option.bind_eq_some_iff]
  simp only [List.findSome?_eq_some_iff, hnone, hindexed.failure?_resolveInput,
    hindexed.get?_eq_some_iff]
  constructor
  · rintro ⟨b, ⟨hb, hindex⟩, before, i, after, hins, ⟨hi, he⟩, hbefore⟩
    exact ⟨b, hb, hindex, before, i, after, hins, hbefore, hi, he⟩
  · rintro ⟨b, hb, hindex, before, i, after, hins, hbefore, hi, he⟩
    exact ⟨b, ⟨hb, hindex⟩, before, i, after, hins, ⟨hi, he⟩, hbefore⟩

/-- Going through a block fails exactly if one of its inputs points nowhere. -/
theorem Indexed.exists_details_eq_error_iff {index : UInt64} :
    (∃ e, c.details index = .error e) ↔ ∃ b ∈ c.blocks, b.index = index ∧
      ∃ tx ∈ b.transactions, ∃ i ∈ tx.ins, i.Dangles c := by
  have hok : (∃ e, c.details index = .error e) ↔ ¬ ∃ found, c.details index = .ok found := by
    cases c.details index <;> simp
  rw [hok, exists_details_iff]
  simp only [hindexed.get?_eq_some_iff, ← hindexed.output?_eq_none_iff, Option.isSome_iff_ne_none]
  push Not
  simp only [and_assoc]

/-- What asking a chain for the block with an index gives: nothing exactly if there is no such
block, a failure exactly if one of the inputs of the block points nowhere, in which case it tells
the first one, and otherwise the block with its inputs resolved, which has the hash of the block and
whose transactions have their ids. -/
theorem Indexed.details_outcome (index : UInt64) :
    (c.details index = .ok none ↔ ∀ b ∈ c.blocks, b.index ≠ index) ∧
    ((∃ e, c.details index = .error e) ↔ ∃ b ∈ c.blocks, b.index = index ∧
      ∃ tx ∈ b.transactions, ∃ i ∈ tx.ins, i.Dangles c) ∧
    (∀ e, c.details index = .error e ↔ ∃ b ∈ c.blocks, b.index = index ∧ ∃ before i after,
      b.transactions.flatMap Transaction.ins = before ++ i :: after ∧
        (∀ j ∈ before, ¬ j.Dangles c) ∧ i.Dangles c ∧ e = ⟨i.point, index⟩) ∧
    (∀ d, c.details index = .ok (some d) ↔ ∃ b ∈ c.blocks, b.index = index ∧ b.ResolvesTo c d) ∧
    ∀ b d : Block, b.ResolvesTo c d → d.contentHash = b.contentHash ∧
      d.transactions.map Transaction.id = b.transactions.map Transaction.id ∧
      ∀ block, (d.transactions.map fun tx => tx.idIn block) =
        b.transactions.map fun tx => tx.idIn block := by
  refine ⟨hindexed.details_eq_none_iff, hindexed.exists_details_eq_error_iff,
    fun e => hindexed.details_eq_error_iff, fun d => hindexed.details_eq_ok_iff, ?_⟩
  intro b d h
  have hid := map_eq_of_forall₂ (fun _ _ htx => htx.id.symm) h.transactions
  refine ⟨h.contentHash_eq, hid.symm, fun block => ?_⟩
  refine (map_eq_of_forall₂ (fun tx ux htx => ?_) h.transactions).symm
  rw [Transaction.idIn, Transaction.idIn, htx.idChars_eq]

omit hindexed

/-- A chain whose first input shows what it does not point at, an output of the next block. Another
input points nowhere. -/
def forged : Chain :=
  holding [
    [⟨"ahead", [⟨⟨2, 0, 0⟩, "s", some "thief", some 1⟩], [⟨"shop", 5⟩]⟩],
    [⟨"owner", [.unresolved ⟨1, 0, 0⟩ "s", .unresolved ⟨9, 9, 9⟩ "s"], [⟨"owner", 7⟩]⟩]]

theorem details_outcome_forged :
    forged.Indexed ∧ forged.details 7 = .ok none ∧ forged.details 2 = .error ⟨⟨9, 9, 9⟩, 2⟩ ∧
      ∃ b d, b ∈ forged.blocks ∧ forged.details 1 = .ok (some d) ∧
        b.transactions = [⟨"ahead", [⟨⟨2, 0, 0⟩, "s", some "thief", some 1⟩], [⟨"shop", 5⟩]⟩] ∧
        d.transactions = [⟨"ahead", [⟨⟨2, 0, 0⟩, "s", some "owner", some 7⟩], [⟨"shop", 5⟩]⟩] ∧
        d.contentHash = b.contentHash := by
  have hindexed : forged.Indexed := indexed_holding (by decide)
  have hshown : forged.Holds ⟨1, 0, 0⟩ ⟨"shop", 5⟩ := ⟨_, _, rfl, rfl, rfl⟩
  have hdangles : (TxIn.unresolved ⟨9, 9, 9⟩ "s").Dangles forged := by
    rintro o ⟨b, tx, hb, -, -⟩
    cases hb
  have hfirst : ¬ (TxIn.unresolved ⟨1, 0, 0⟩ "s").Dangles forged := fun h => h _ hshown
  refine ⟨hindexed, (hindexed.details_outcome 7).1.mpr (by decide),
    ((hindexed.details_outcome 2).2.2.1 _).mpr ⟨_, List.mem_of_getElem? (i := 2) rfl, rfl,
      [_], _, [], rfl, List.forall_mem_singleton.mpr hfirst, hdangles, rfl⟩, ?_⟩
  obtain ⟨-, -, -, hresolved, hsame⟩ := hindexed.details_outcome 1
  obtain ⟨b, hb⟩ : ∃ b, forged.blocks[1]? = some b := ⟨_, rfl⟩
  have htransactions : b.transactions =
      [⟨"ahead", [⟨⟨2, 0, 0⟩, "s", some "thief", some 1⟩], [⟨"shop", 5⟩]⟩] := by
    cases hb
    rfl
  have hinput : TxIn.ResolvesTo forged ⟨⟨2, 0, 0⟩, "s", some "thief", some 1⟩
      ⟨⟨2, 0, 0⟩, "s", some "owner", some 7⟩ :=
    ⟨rfl, rfl, _, ⟨_, _, rfl, rfl, rfl⟩, rfl, rfl⟩
  have hresolves : b.ResolvesTo forged { b with
      transactions := [⟨"ahead", [⟨⟨2, 0, 0⟩, "s", some "owner", some 7⟩], [⟨"shop", 5⟩]⟩] } := by
    refine ⟨rfl, rfl, rfl, rfl, rfl, rfl, rfl, ?_⟩
    rw [htransactions]
    exact .cons ⟨rfl, .cons hinput .nil, rfl⟩ .nil
  have hmem := List.mem_of_getElem? hb
  have hindex : b.index = 1 := UInt64.toNat_inj.mp (hindexed 1 b hb)
  exact ⟨b, _, hmem, (hresolved _).mpr ⟨b, hmem, hindex, hresolves⟩, htransactions, rfl,
    (hsame _ _ hresolves).1⟩

end Chain

end WorkLedger
