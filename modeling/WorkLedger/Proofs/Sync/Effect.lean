import WorkLedger.Proofs.Chain.Position
import WorkLedger.Proofs.Chain.Stepwise
import WorkLedger.Proofs.Sync.Reconcile

/-!
# The effect of one candidate

Unless a candidate extends the chain, the chain stays as it is. An extension takes the blocks
of the candidate up to the first one that the chain refuses. A replacement is offered only for a
sequence that is not yet in the chain, and only where it fits: applied at once, a whole chain
can fail only by a block that is not genuine, and a splice only by such a first block.
-/

namespace WorkLedger

namespace Chain

variable {c : Chain}

/-- Every block of a list is in the chain, up to its content. -/
def Contains (c : Chain) (bs : List Block) : Prop :=
  ∀ b ∈ bs, ∃ known ∈ c.blocks, known.index = b.index ∧ known.hash = b.hash

theorem InPlace.isKnown_iff (h : c.InPlace) (bs : List Block) :
    Reconciler.isKnown c bs = true ↔ c.Contains bs := by
  rw [Reconciler.isKnown_eq_true_iff]
  refine forall₂_congr fun b _ => ?_
  constructor
  · rintro ⟨known, hget, hhash⟩
    obtain ⟨hpos, hindex⟩ := Option.filter_eq_some_iff.mp hget
    exact ⟨known, List.mem_of_getElem? hpos, beq_iff_eq.mp hindex, hhash⟩
  · rintro ⟨known, hmem, hindex, hhash⟩
    obtain ⟨i, hi⟩ := List.getElem?_of_mem hmem
    refine ⟨known, ?_, hhash⟩
    rw [h.get?_eq, ← hindex, h.index i known hi]
    exact hi

/-- What a splice keeps ends with the block before its start. -/
theorem InPlace.tail?_kept (h : c.InPlace) {start : UInt64} {anchor : Block}
    (hstart : start ≠ 0) (hanchor : c.blocks[start.toNat - 1]? = some anchor) :
    (Replacement.kept c start).tail? = some anchor := by
  have hpos : 0 < start.toNat := Nat.pos_of_ne_zero fun hzero =>
    hstart (UInt64.toNat_inj.mp hzero)
  rw [Replacement.kept, h.takeWhile_index, tail?]
  change (c.blocks.take start.toNat).getLast? = some anchor
  rw [List.getLast?_take, if_neg hpos.ne', hanchor]
  rfl

end Chain

namespace Replacement

theorem exists_applyFull_eq_error_iff (c : Chain) {bs : List Block} (hne : bs ≠ [])
    (hsequence : Block.isSequence bs = true) :
    (∃ e, (applyFull c bs).result = .error e) ↔ ∃ b ∈ bs, b.isGenuine = false := by
  by_cases h : isComplete bs = true
  · rw [applyFull_of_isComplete c hne h]
    constructor
    · rintro ⟨e, he⟩
      cases he
    · rintro ⟨b, hb, hforged⟩
      rw [((isComplete_iff bs).mp h).2 b hb] at hforged
      cases hforged
  · obtain ⟨e, he⟩ := applyFull_of_not_isComplete c hne h
    refine ⟨fun _ => ?_, fun _ => ⟨e, by rw [he]⟩⟩
    by_contra hall
    apply h
    rw [isComplete_iff]
    refine ⟨hsequence, fun b hb => ?_⟩
    by_contra hforged
    exact hall ⟨b, hb, Bool.not_eq_true _ ▸ hforged⟩

/-- A splice that links to what it keeps fails only by its first block. -/
theorem exists_applySplice_eq_error_iff {c : Chain} {start : UInt64} {first anchor : Block}
    {rest : List Block} (hanchor : (kept c start).tail? = some anchor)
    (hindex : first.index = anchor.index + 1) (hlink : first.previousHash = anchor.hash) :
    (∃ e, (applySplice c start (first :: rest)).result = .error e) ↔
      first.isGenuine = false := by
  obtain ⟨n, longer, _, hfold, hrefused, htaken⟩ := applySplice_stepwise c start (first :: rest)
  rcases Nat.eq_zero_or_pos n with rfl | hpos
  · obtain ⟨e, he, hzero⟩ := hrefused first rfl
    cases hfold
    refine ⟨fun _ => ?_, fun _ => ⟨e, by rw [hzero rfl]⟩⟩
    by_contra hgenuine
    rw [Bool.not_eq_false] at hgenuine
    have hfollows : first.follows anchor = true := by
      rw [Block.follows_iff]
      exact ⟨hindex, hlink, ((Block.isGenuine_iff first).mp hgenuine).1⟩
    have hok := Chain.append_eq_ok_iff.mpr ⟨⟨hgenuine, fun tail htail =>
      Option.some.inj (hanchor.symm.trans htail) ▸ hfollows⟩, rfl⟩
    rw [hok] at he
    cases he
  · have hgenuine : first.isGenuine = true := by
      refine (Chain.exists_foldlM_append_iff.mp ⟨longer, hfold⟩).1 first ?_
      obtain ⟨m, rfl⟩ := Nat.exists_eq_succ_of_ne_zero hpos.ne'
      exact List.mem_cons_self
    rw [htaken hpos, hgenuine]
    exact ⟨fun ⟨_, he⟩ => (nomatch he), nofun⟩

end Replacement

namespace Reconciler

/-- What one candidate does to a chain, and what may come of it. -/
structure Effect (c : Chain) (candidate : List Block) (outcome : ReconcileOutcome) (d : Chain) :
    Prop where
  same : (∀ n, outcome ≠ .extended n) → d = c
  /-- An extension takes the blocks up to the first refusal. -/
  extended : ∀ n, outcome = .extended n → n ≤ candidate.length ∧
    d = { c with blocks := c.blocks ++ candidate.take n } ∧
    (candidate.take n).foldlM Chain.append c = .ok d ∧
    ∀ b, candidate[n]? = some b → ∃ e, d.append b = .error e
  /-- A replacement is offered for a sequence that is not in the chain. -/
  news : ∀ r, outcome = .replace r → Block.isSequence candidate = true ∧ ¬ c.Contains candidate
  /-- It is the whole candidate, or a splice that links to the block below it. -/
  shape : ∀ r, outcome = .replace r → ∃ first, candidate.head? = some first ∧
    (first.index = 0 ∧ r = .full candidate ∧
        ((∃ e, (c.replace r).result = .error e) ↔ ∃ b ∈ candidate, b.isGenuine = false) ∨
      0 < first.index ∧ r = .splice first.index candidate ∧
        (∃ tail, c.tail? = some tail ∧ first.index ≤ tail.index) ∧
        (∃ anchor, c.blocks[first.index.toNat - 1]? = some anchor ∧
          anchor.hash = first.previousHash) ∧
        ((∃ e, (c.replace r).result = .error e) ↔ first.isGenuine = false))

theorem effect_extend (c : Chain) (candidate : List Block) :
    Effect c candidate (.extended (c.extend candidate).taken) (c.extend candidate).chain where
  same h := absurd rfl (h _)
  extended n hn := by
    cases hn
    obtain ⟨hfold, hrefused⟩ := c.extend_stepwise candidate
    refine ⟨c.taken_extend_le candidate, c.chain_extend candidate, hfold, fun b hb => ?_⟩
    obtain ⟨e, -, he⟩ := hrefused b hb
    exact ⟨e, he⟩
  news := nofun
  shape := nofun

section

variable {policy : Reconciler} {c : Chain} {candidate : List Block} {r : Replacement}

theorem not_contains_of_replace (hc : c.blocks ≠ [] → c.InPlace)
    (h : policy.reconcile c candidate = (.replace r, c)) : ¬ c.Contains candidate := by
  obtain ⟨_, _, hknown, first, hfirst, _⟩ := reconcile_eq_replace h
  intro hcontains
  by_cases hne : c.blocks = []
  · obtain ⟨known, hmem, _⟩ := hcontains first (List.mem_of_head? hfirst)
    rw [hne] at hmem
    cases hmem
  · rw [((hc hne).isKnown_iff candidate).mpr hcontains] at hknown
    cases hknown

/-- The block below a splice is the one that its first block links to. -/
theorem exists_anchor (hc : c.InPlace) (hfits : c.Fits) {tail first : Block}
    (htail : c.tail? = some tail) (hzero : first.index ≠ 0) (hle : first.index ≤ tail.index)
    (hlinks : first.index ≤ tail.index + 1 → linksInto c first = true) :
    ∃ anchor, c.blocks[first.index.toNat - 1]? = some anchor ∧
      first.index = anchor.index + 1 ∧ first.previousHash = anchor.hash := by
  have hlength := hc.toNat_index_tail htail
  have hnext := hc.toNat_next hfits htail
  have hpos : 0 < first.index.toNat := Nat.pos_of_ne_zero fun h => hzero (UInt64.toNat_inj.mp h)
  have hbelow : (first.index - 1).toNat = first.index.toNat - 1 :=
    UInt64.toNat_sub_of_le _ _ (UInt64.le_iff_toNat_le.mpr hpos)
  have hlinked := hlinks (by
    rw [UInt64.le_iff_toNat_le] at hle ⊢
    omega)
  rw [linksInto, hc.get?_eq, hbelow, Option.any_eq_true] at hlinked
  obtain ⟨anchor, hanchor, hhash⟩ := hlinked
  refine ⟨anchor, hanchor, ?_, (beq_iff_eq.mp hhash).symm⟩
  rw [hc.index_eq hanchor, ← hbelow, UInt64.ofNat_toNat, UInt64.sub_add_cancel]

end

/-- On a chain without blocks, or whose blocks stand in place, one candidate has exactly the
effect that its outcome tells. -/
theorem effect_reconcile (policy : Reconciler) {c : Chain} (hc : c.blocks ≠ [] → c.InPlace)
    (hfits : c.Fits) (candidate : List Block) :
    Effect c candidate (policy.reconcile c candidate).1 (policy.reconcile c candidate).2 := by
  rcases reconcile_cases policy c candidate with hextended | ⟨hsame, hnever⟩
  · rw [hextended]
    exact effect_extend c candidate
  refine ⟨fun _ => hsame, fun n hn => absurd hn (hnever n), fun r hr => ?_, fun r hr => ?_⟩
  · have hresult : policy.reconcile c candidate = (.replace r, c) := Prod.ext hr hsame
    exact ⟨(reconcile_eq_replace hresult).2.1, not_contains_of_replace hc hresult⟩
  · have hresult : policy.reconcile c candidate = (.replace r, c) := Prod.ext hr hsame
    obtain ⟨_, hsequence, _, first, hfirst, hshape⟩ := reconcile_eq_replace hresult
    refine ⟨first, hfirst, ?_⟩
    obtain ⟨rest, rfl⟩ := List.head?_eq_some_iff.mp hfirst
    rcases hshape with ⟨hzero, rfl⟩ | ⟨hzero, rfl, tail, htail, hle, hlinks⟩
    · exact Or.inl ⟨hzero, rfl, Replacement.exists_applyFull_eq_error_iff c (by simp) hsequence⟩
    · right
      have hne : c.blocks ≠ [] := fun hnil => by
        rw [Chain.tail?, hnil] at htail
        cases htail
      obtain ⟨anchor, hanchor, hindex, hlink⟩ := exists_anchor (hc hne) hfits htail hzero hle hlinks
      refine ⟨UInt64.pos_iff_ne_zero.mpr hzero, rfl, ⟨tail, htail, hle⟩,
        ⟨anchor, hanchor, hlink.symm⟩, ?_⟩
      exact Replacement.exists_applySplice_eq_error_iff
        ((hc hne).tail?_kept hzero hanchor) hindex hlink

/-- Two other blocks on the first one, and a third that claims work which was not done. -/
def rivalBranch : List Block :=
  let trunk := Block.genesis.onTop 5
  let branch := trunk.onTop 6
  [trunk, branch, { branch.onTop 7 with difficulty := 40 }]

theorem effect_reconcile_rivalBranch :
    (Chain.twoOnTop.blocks ≠ [] → Chain.twoOnTop.InPlace) ∧ Chain.twoOnTop.Fits ∧
      Effect Chain.twoOnTop rivalBranch
        ((Reconciler.mk false).reconcile Chain.twoOnTop rivalBranch).1
        ((Reconciler.mk false).reconcile Chain.twoOnTop rivalBranch).2 := by
  have hfits : Chain.twoOnTop.Fits := by
    rw [Chain.Fits]
    decide
  have hone := Chain.sound_start.onTop rfl 1
  have hsound : Chain.twoOnTop.Sound := hone.onTop rfl 2
  have hplace : Chain.twoOnTop.blocks ≠ [] → Chain.twoOnTop.InPlace :=
    fun _ => hsound.inPlace hfits
  exact ⟨hplace, hfits, effect_reconcile ⟨false⟩ hplace hfits rivalBranch⟩

end Reconciler

end WorkLedger
