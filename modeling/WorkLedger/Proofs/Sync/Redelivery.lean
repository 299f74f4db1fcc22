import WorkLedger.Proofs.Sync.Delivery
import WorkLedger.Proofs.Sync.Effect

/-!
# Delivering a candidate again

A delivery leaves a chain alone, or swaps it for the whole candidate, or appends blocks of the
candidate, at least the first one, to a sound chain: to the local one, or to what a splice keeps
of it. The same candidate comes back by another way then. All blocks of a candidate that was taken
as a whole are known. One that was taken in part is a splice now, even if it extended the chain
before, and the splice keeps just what the blocks were appended to. So the second delivery stops
at the same block as the first one (`deliver_deliver`).
-/

namespace WorkLedger

namespace Chain

theorem length_extend (c : Chain) (bs : List Block) :
    (c.extend bs).chain.blocks.length = c.blocks.length + (c.extend bs).taken := by
  rw [chain_extend, List.length_append, List.length_take_of_le (c.taken_extend_le bs)]

/-- Blocks that are appended stand behind those that were there, as far as they are taken. -/
theorem getElem?_extend (c : Chain) {bs : List Block} {i : ℕ} (hi : i < (c.extend bs).taken) :
    (c.extend bs).chain.blocks[c.blocks.length + i]? = bs[i]? := by
  rw [chain_extend, List.getElem?_append_right (Nat.le_add_right _ _), Nat.add_sub_cancel_left,
    List.getElem?_take_of_lt hi]

theorem append_of_workDone_eq_false (c : Chain) {b : Block} (h : b.workDone = false) :
    c.append b = .error (.invalidHash b.index) := by
  simp [append, refusal?, h]

end Chain

/-- How many of the offered blocks a replacement took. -/
def Replacement.Outcome.taken (o : Outcome) : ℕ := o.result.toOption.getD 0

namespace Reconciler

/-- How many blocks of a candidate its delivery takes into the chain. -/
def taken (policy : Reconciler) (c : Chain) (candidate : List Block) : ℕ :=
  match policy.reconcile c candidate with
  | (.extended count, _) => count
  | (.replace r, d) => (d.replace r).taken
  | _ => 0

/-- A sound chain takes blocks of a candidate, at least the first one, and then still fits into
memory. -/
structure Takes (base : Chain) (first : Block) (candidate : List Block) : Prop where
  sound : base.Sound
  head : candidate.head? = some first
  isSequence : Block.isSequence candidate = true
  pos : 0 < (base.extend candidate).taken
  fits : (base.extend candidate).chain.Fits

namespace Takes

variable {base : Chain} {first : Block} {candidate : List Block}
  (h : Takes base first candidate)

include h

theorem inPlace : (base.extend candidate).chain.InPlace :=
  (h.sound.extend candidate).inPlace h.fits

theorem getElem?_first :
    (base.extend candidate).chain.blocks[base.blocks.length]? = some first := by
  have hfirst := base.getElem?_extend h.pos
  rwa [Nat.add_zero, ← List.head?_eq_getElem?, h.head] at hfirst

theorem toNat_index_first : first.index.toNat = base.blocks.length :=
  h.inPlace.index _ first h.getElem?_first

theorem index_ne_zero : first.index ≠ 0 := by
  intro hzero
  have hlength := h.toNat_index_first
  rw [hzero] at hlength
  exact h.sound.ne_nil (List.length_eq_zero_iff.mp hlength.symm)

/-- Cut off at the candidate's first block, the chain is the one that took the candidate. -/
theorem kept_eq : Replacement.kept (base.extend candidate).chain first.index = base := by
  rw [Replacement.kept, h.inPlace.takeWhile_index, h.toNat_index_first, Chain.chain_extend,
    List.take_left]

theorem linksInto : Reconciler.linksInto (base.extend candidate).chain first = true := by
  obtain ⟨n, hn⟩ := Nat.exists_eq_succ_of_ne_zero
    (List.length_pos_iff.mpr h.sound.ne_nil).ne'
  have hfirst := h.getElem?_first
  have hbelow : (first.index - 1).toNat = n := by
    have hone : (1 : UInt64) ≤ first.index := by
      rw [UInt64.le_iff_toNat_le, h.toNat_index_first, hn]
      exact Nat.succ_pos n
    rw [UInt64.toNat_sub_of_le _ _ hone, h.toNat_index_first, hn]
    rfl
  rw [hn] at hfirst
  have hlt : n < (base.extend candidate).chain.blocks.length := by
    rw [Chain.length_extend, hn]
    omega
  have hanchor := List.getElem?_eq_getElem hlt
  have hfollows := (Block.follows_iff _ _).mp (h.inPlace.sound.follows hanchor hfirst)
  rw [Reconciler.linksInto, h.inPlace.get?_eq, hbelow, hanchor, hfollows.2.1]
  exact beq_self_eq_true _

theorem exists_tail : ∃ tail, (base.extend candidate).chain.tail? = some tail ∧
    first.index ≤ tail.index := by
  have htail := List.getLast?_eq_some_getLast h.inPlace.ne_nil
  have hmem := List.mem_of_getElem? h.getElem?_first
  exact ⟨_, htail, h.inPlace.index_le_tail htail hmem⟩

/-- The candidate is known afterwards exactly if it was taken as a whole. -/
theorem contains_iff : (base.extend candidate).chain.Contains candidate ↔
    (base.extend candidate).taken = candidate.length := by
  constructor
  · intro hall
    by_contra hpart
    have hlt : (base.extend candidate).taken < candidate.length :=
      lt_of_le_of_ne (base.taken_extend_le candidate) hpart
    have hb := List.getElem?_eq_getElem hlt
    obtain ⟨known, hknown, hindex, -⟩ := hall _ (List.mem_of_getElem? hb)
    obtain ⟨i, hi⟩ := List.getElem?_of_mem hknown
    have hlast : (candidate[(base.extend candidate).taken]).index.toNat =
        (base.extend candidate).chain.blocks.length := by
      rw [Block.index_of_isSequence h.isSequence h.head hb, UInt64.toNat_add,
        h.toNat_index_first, UInt64.toNat_ofNat', Nat.add_mod_mod, ← Chain.length_extend]
      exact Nat.mod_eq_of_lt h.fits
    rw [← hindex, h.inPlace.index i known hi] at hlast
    exact absurd (List.getElem?_eq_some_iff.mp hi).1 (by omega)
  · intro hwhole b hb
    refine ⟨b, ?_, rfl, rfl⟩
    rw [Chain.chain_extend, hwhole, List.take_length]
    exact List.mem_append_right _ hb

/-- A candidate of which blocks were taken is discarded if these are all, and otherwise it is a
splice from its first block on. -/
theorem reconcile_eq (policy : Reconciler) :
    policy.reconcile (base.extend candidate).chain candidate =
      (if (base.extend candidate).taken = candidate.length then .discarded
        else .replace (.splice first.index candidate), (base.extend candidate).chain) := by
  obtain ⟨tail, htail, hle⟩ := h.exists_tail
  obtain ⟨rest, hrest⟩ := List.head?_eq_some_iff.mp h.head
  have hlast := List.getLast?_eq_some_getLast (l := candidate) (by simp [hrest])
  have hknown := (h.inPlace.isKnown_iff candidate).trans h.contains_iff
  rw [reconcile_of_tail policy htail h.head hlast h.isSequence]
  by_cases hwhole : (base.extend candidate).taken = candidate.length
  · simp only [placement, hknown.mpr hwhole, if_true, hwhole]
  · simp only [placement, mt hknown.mp hwhole, h.index_ne_zero, h.linksInto, hle, hwhole,
      Bool.true_eq_false, Bool.false_eq_true, and_false, if_false, if_true]

/-- A candidate of which blocks were taken leaves the chain alone when it is delivered again. -/
theorem deliver_eq (policy : Reconciler) :
    policy.deliver (base.extend candidate).chain candidate = (base.extend candidate).chain := by
  have hagain := h.reconcile_eq policy
  by_cases hwhole : (base.extend candidate).taken = candidate.length
  · rw [if_pos hwhole] at hagain
    rw [deliver, hagain]
  · rw [if_neg hwhole] at hagain
    rw [deliver_of_replace hagain]
    change (Replacement.applySplice _ first.index candidate).chain = _
    rw [Replacement.applySplice_eq_ok, h.kept_eq]
    rw [h.kept_eq]
    exact Or.inr h.pos.ne'

end Takes

/-- What a delivery can make of a chain, and how many blocks it takes: nothing, or the whole
complete candidate, or blocks of it that a sound chain takes. -/
inductive Delivered (c : Chain) (candidate : List Block) : Chain → ℕ → Prop
  | same : Delivered c candidate c 0
  | whole (complete : Replacement.isComplete candidate = true)
      (opens : ∃ first, candidate.head? = some first ∧ first.index = 0) :
      Delivered c candidate { c with blocks := candidate } candidate.length
  | grafted {base : Chain} {first : Block} (takes : Takes base first candidate) :
      Delivered c candidate (base.extend candidate).chain (base.extend candidate).taken

section

variable {policy : Reconciler} {c d : Chain} {candidate : List Block} {first : Block}

theorem delivered_extend (hc : c.Sound) (hfirst : candidate.head? = some first)
    (hsequence : Block.isSequence candidate = true)
    (hfits : (c.extend candidate).chain.Fits) :
    Delivered c candidate (c.extend candidate).chain (c.extend candidate).taken := by
  rcases Nat.eq_zero_or_pos (c.extend candidate).taken with hzero | hpos
  · have hsame : (c.extend candidate).chain = c := by
      rw [Chain.chain_extend, hzero, List.take_zero, List.append_nil]
    rw [hsame, hzero]
    exact .same
  · exact .grafted ⟨hc, hfirst, hsequence, hpos, hfits⟩

theorem delivered_full (hfirst : candidate.head? = some first) (hzero : first.index = 0) :
    Delivered c candidate (Replacement.applyFull c candidate).chain
      (Replacement.applyFull c candidate).taken := by
  have hne : candidate ≠ [] := List.ne_nil_of_mem (List.mem_of_head? hfirst)
  by_cases hcomplete : Replacement.isComplete candidate = true
  · rw [Replacement.applyFull_of_isComplete c hne hcomplete]
    exact .whole hcomplete ⟨first, hfirst, hzero⟩
  · obtain ⟨e, he⟩ := Replacement.applyFull_of_not_isComplete c hne hcomplete
    rw [he]
    exact .same

theorem delivered_splice (hc : c.Sound) (hfirst : candidate.head? = some first)
    (hsequence : Block.isSequence candidate = true) (hzero : first.index ≠ 0)
    (hfits : (Replacement.applySplice c first.index candidate).chain.Fits) :
    Delivered c candidate (Replacement.applySplice c first.index candidate).chain
      (Replacement.applySplice c first.index candidate).taken := by
  rcases Nat.eq_zero_or_pos ((Replacement.kept c first.index).extend candidate).taken with
    hnone | hpos
  · obtain ⟨-, hrefused⟩ := (Replacement.kept c first.index).extend_stepwise candidate
    rw [hnone, ← List.head?_eq_getElem?] at hrefused
    obtain ⟨e, hrefusal, -⟩ := hrefused first hfirst
    rw [Replacement.applySplice_eq_error hrefusal hnone]
    exact .same
  · rw [Replacement.applySplice_eq_ok (Or.inr hpos.ne')] at hfits ⊢
    exact .grafted ⟨hc.kept hzero, hfirst, hsequence, hpos, hfits⟩

/-- Only a sequence extends a chain, and only one that has a last block. -/
theorem isSequence_of_extended {n : ℕ} (h : policy.reconcile c candidate = (.extended n, d)) :
    c.blocks ≠ [] ∧ Block.isSequence candidate = true ∧ ∃ first, candidate.head? = some first := by
  cases hfirst : candidate.head? with
  | none => simp [reconcile, hfirst] at h
  | some first =>
      cases hlast : candidate.getLast? with
      | none => simp [reconcile, hlast] at h
      | some last =>
          by_cases hsequence : Block.isSequence candidate = true
          · refine ⟨fun hnil => ?_, hsequence, first, rfl⟩
            have htail : c.tail? = none := by rw [Chain.tail?, hnil]; rfl
            simp only [reconcile, hfirst, hlast, hsequence, htail, if_true] at h
            split at h <;> cases h
          · simp [reconcile, hfirst, hlast, hsequence] at h

theorem delivered (policy : Reconciler) (hc : c.blocks ≠ [] → c.Sound) (candidate : List Block)
    (hfits : (policy.deliver c candidate).Fits) :
    Delivered c candidate (policy.deliver c candidate) (policy.taken c candidate) := by
  have hsame := (reconcile_cases policy c candidate).resolve_left
  rcases hresult : policy.reconcile c candidate with ⟨outcome, d⟩
  rw [hresult] at hsame
  rw [deliver, hresult] at hfits
  rw [deliver, taken, hresult]
  cases outcome with
  | discarded =>
      obtain rfl := (hsame fun h => by cases h).1
      exact .same
  | requestRange range =>
      obtain rfl := (hsame fun h => by cases h).1
      exact .same
  | extended n =>
      obtain ⟨rfl, rfl⟩ := eq_extend_of_reconcile hresult
      obtain ⟨hne, hsequence, first, hfirst⟩ := isSequence_of_extended hresult
      exact delivered_extend (hc hne) hfirst hsequence hfits
  | replace r =>
      obtain ⟨rfl, hsequence, -, first, hfirst, hshape⟩ := reconcile_eq_replace hresult
      rcases hshape with ⟨hzero, rfl⟩ | ⟨hzero, rfl, tail, htail, -⟩
      · exact delivered_full hfirst hzero
      · have hne : d.blocks ≠ [] := fun hnil => by
          rw [Chain.tail?, hnil] at htail
          cases htail
        exact delivered_splice (hc hne) hfirst hsequence hzero hfits

/-- A complete candidate is discarded when it has taken the place of the chain. -/
theorem reconcile_of_isComplete (policy : Reconciler)
    (hcomplete : Replacement.isComplete candidate = true)
    (hopens : ∃ first, candidate.head? = some first ∧ first.index = 0)
    (hfits : Chain.Fits { c with blocks := candidate }) :
    policy.reconcile { c with blocks := candidate } candidate =
      (.discarded, { c with blocks := candidate }) := by
  obtain ⟨hsequence, hgenuine⟩ := (Replacement.isComplete_iff candidate).mp hcomplete
  have hsound : Chain.Sound { c with blocks := candidate } := ⟨hopens, hsequence, hgenuine⟩
  have hknown := ((hsound.inPlace hfits).isKnown_iff candidate).mpr fun b hb => ⟨b, hb, rfl, rfl⟩
  obtain ⟨first, hfirst, -⟩ := hopens
  have htail := List.getLast?_eq_some_getLast hsound.ne_nil
  rw [reconcile_of_tail policy htail hfirst htail hsequence]
  simp only [placement, hknown, if_true]

/-- A second delivery of a candidate leaves the chain as the first one left it, and if the first
one took the whole candidate, the second one discards it. The chain has no blocks or has them in
place, and fits into memory after the first delivery. -/
theorem deliver_deliver (policy : Reconciler) (hc : c.blocks ≠ [] → c.InPlace)
    (candidate : List Block) (hfits : (policy.deliver c candidate).Fits) :
    policy.deliver (policy.deliver c candidate) candidate = policy.deliver c candidate ∧
      (policy.taken c candidate = candidate.length →
        (policy.reconcile (policy.deliver c candidate) candidate).1 = .discarded) := by
  have hfirst := delivered policy (fun hne => (hc hne).sound) candidate hfits
  generalize hd : policy.deliver c candidate = d at hfits hfirst ⊢
  generalize policy.taken c candidate = n at hfirst ⊢
  cases hfirst with
  | same =>
      refine ⟨hd, fun hall => ?_⟩
      obtain rfl := List.length_eq_zero_iff.mp hall.symm
      rfl
  | whole hcomplete hopens =>
      have hagain := reconcile_of_isComplete policy hcomplete hopens hfits
      exact ⟨by rw [deliver, hagain], fun _ => by rw [hagain]⟩
  | grafted htakes =>
      rw [htakes.deliver_eq policy, htakes.reconcile_eq policy]
      exact ⟨rfl, fun hall => if_pos hall⟩

end

/-- A sequence that goes on from the first block extends the chain of it. -/
theorem reconcile_start (policy : Reconciler) {rest : List Block}
    (hsequence : Block.isSequence (Block.genesis.onTop 1 :: rest) = true) :
    policy.reconcile Chain.start (Block.genesis.onTop 1 :: rest) =
      (.extended (Chain.start.extend (Block.genesis.onTop 1 :: rest)).taken,
        (Chain.start.extend (Block.genesis.onTop 1 :: rest)).chain) := by
  have htail : Chain.start.tail? = some Block.genesis := rfl
  have hlast := List.getLast?_eq_some_getLast (List.cons_ne_nil (Block.genesis.onTop 1) rest)
  have hknown : isKnown Chain.start (Block.genesis.onTop 1 :: rest) = false := rfl
  have hlinks : linksInto Chain.start (Block.genesis.onTop 1) = true :=
    beq_self_eq_true Block.genesis.hash
  rw [reconcile_of_tail policy htail rfl hlast hsequence]
  simp only [placement, hknown, hlinks]
  rfl

/-- The first block with another one on top. -/
def oneOnTop : Chain := ⟨[Block.genesis, Block.genesis.onTop 1], []⟩

theorem append_start : Chain.start.append (Block.genesis.onTop 1) = .ok oneOnTop :=
  Chain.append_onTop rfl 1

theorem reconcile_onTop (policy : Reconciler) :
    policy.reconcile Chain.start [Block.genesis.onTop 1] = (.extended 1, oneOnTop) := by
  rw [reconcile_start policy (Block.isSequence_singleton _), Chain.extend_cons_of_ok append_start]
  rfl

/-- A block whose difficulty no hash meets. -/
def unworkable : Block := Block.unmined 2 (Block.genesis.onTop 1).hash 2 [] 264 "miner"

theorem workDone_unworkable : unworkable.workDone = false := by
  change Difficulty.metByHex (Sha256.hexOfText _) 264 = false
  rw [Sha256.hexOfText, Difficulty.metByHex, Hex.decode?_encode]
  simp [Difficulty.meets]

/-- A block on the first one, and another one on it that cannot be taken. -/
def torn : List Block := [Block.genesis.onTop 1, unworkable]

theorem reconcile_torn (policy : Reconciler) :
    policy.reconcile Chain.start torn = (.extended 1, oneOnTop) := by
  have hsequence : Block.isSequence torn = true := by
    rw [torn, Block.isSequence_cons_cons, Block.isSequence_singleton, Bool.and_true,
      Block.follows_iff]
    exact ⟨rfl, rfl, Block.hashMatches_unmined _ _ _ _ _ _⟩
  have hrefused := oneOnTop.append_of_workDone_eq_false workDone_unworkable
  rw [torn, reconcile_start policy hsequence, Chain.extend_cons_of_ok append_start,
    Chain.extend_cons_of_error hrefused]

/-- Of two blocks one is taken, and nothing changes when both are delivered again; a block that is
taken is discarded when it comes again. -/
theorem deliver_deliver_torn :
    (Chain.start.blocks ≠ [] → Chain.start.InPlace) ∧
      (deliver ⟨false⟩ Chain.start torn).Fits ∧ taken ⟨false⟩ Chain.start torn = 1 ∧
      deliver ⟨false⟩ (deliver ⟨false⟩ Chain.start torn) torn = deliver ⟨false⟩ Chain.start torn ∧
      taken ⟨false⟩ Chain.start [Block.genesis.onTop 1] = 1 ∧
      (reconcile ⟨false⟩ (deliver ⟨false⟩ Chain.start [Block.genesis.onTop 1])
        [Block.genesis.onTop 1]).1 = .discarded := by
  have hplace : Chain.start.blocks ≠ [] → Chain.start.InPlace := fun _ => inPlace_start
  have hfits : oneOnTop.Fits := by
    rw [Chain.Fits]
    decide
  have htorn : deliver ⟨false⟩ Chain.start torn = oneOnTop := by rw [deliver, reconcile_torn]
  have hone : deliver ⟨false⟩ Chain.start [Block.genesis.onTop 1] = oneOnTop := by
    rw [deliver, reconcile_onTop]
  have htaken : taken ⟨false⟩ Chain.start [Block.genesis.onTop 1] = 1 := by
    rw [taken, reconcile_onTop]
  exact ⟨hplace, by rw [htorn]; exact hfits, by rw [taken, reconcile_torn],
    (deliver_deliver ⟨false⟩ hplace torn (by rw [htorn]; exact hfits)).1, htaken,
    (deliver_deliver ⟨false⟩ hplace [Block.genesis.onTop 1] (by rw [hone]; exact hfits)).2 htaken⟩

end Reconciler

end WorkLedger
