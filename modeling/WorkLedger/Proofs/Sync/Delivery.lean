import WorkLedger.Proofs.Sync.Reconcile

/-!
# Deliveries and the first block

A candidate is delivered when it is reconciled and the replacement that it leads
to, if it does, is applied at once. Only one kind of candidate moves the first
block of a chain to another hash: a complete chain of its own, from index zero
on, whose first block has another hash. Whether the policy allows a reset plays
no part in it, because candidates are reconciled without a look at the policy.
So a chain keeps its first hash over any number of deliveries exactly as long as
no such candidate is among them (`firstHash_deliverAll_iff`).
-/

namespace WorkLedger

/-- A candidate ousts a first block with hash `h` when it is a complete chain
from index zero on whose first block has another hash. -/
def Ousts (h : String) (candidate : List Block) : Prop :=
  Replacement.isComplete candidate = true ∧
    ∃ first, candidate.head? = some first ∧ first.index = 0 ∧ first.hash ≠ h

namespace Reconciler

/-- The chain after a candidate has been reconciled and the replacement that it
led to has been applied. -/
def deliver (policy : Reconciler) (c : Chain) (candidate : List Block) : Chain :=
  match policy.reconcile c candidate with
  | (.replace r, d) => (d.replace r).chain
  | (_, d) => d

/-- The chain after candidates have been delivered one by one. -/
def deliverAll (policy : Reconciler) (c : Chain) (candidates : List (List Block)) :
    Chain := candidates.foldl policy.deliver c

theorem deliver_of_replace {policy : Reconciler} {c d : Chain}
    {candidate : List Block} {r : Replacement}
    (h : policy.reconcile c candidate = (.replace r, d)) :
    policy.deliver c candidate = (d.replace r).chain := by
  unfold deliver
  rw [h]

/-- A delivery applies a replacement to the chain, or leaves the chain as
reconciling made it. -/
theorem deliver_cases (policy : Reconciler) (c : Chain) (candidate : List Block) :
    (∃ r, policy.reconcile c candidate = (.replace r, c) ∧
        policy.deliver c candidate = (c.replace r).chain) ∨
      policy.deliver c candidate = (policy.reconcile c candidate).2 := by
  rcases hresult : policy.reconcile c candidate with ⟨outcome, d⟩
  cases outcome with
  | replace r =>
      obtain ⟨rfl, _⟩ := reconcile_replace hresult
      exact Or.inl ⟨r, rfl, deliver_of_replace hresult⟩
  | discarded => exact Or.inr (by simp only [deliver, hresult])
  | extended count => exact Or.inr (by simp only [deliver, hresult])
  | requestRange range => exact Or.inr (by simp only [deliver, hresult])

theorem sound_deliver {c : Chain} (h : c.Sound) (policy : Reconciler)
    (candidate : List Block) : (policy.deliver c candidate).Sound := by
  rcases deliver_cases policy c candidate with ⟨r, hresult, hdeliver⟩ | hdeliver
  · rw [hdeliver]
    exact h.replace (isAnchored_of_reconcile hresult)
  · rw [hdeliver]
    exact h.reconcile policy candidate

section

variable {c : Chain} {first : Block} (hfirst : c.first? = some first) (policy : Reconciler)
  {candidate : List Block} (h : Ousts first.hash candidate)

include hfirst h

theorem reconcile_of_ousts :
    policy.reconcile c candidate = (.replace (.full candidate), c) := by
  obtain ⟨hcomplete, other, hother, hzero, hhash⟩ := h
  have hsequence := ((Replacement.isComplete_iff candidate).mp hcomplete).1
  have hne : candidate ≠ [] := by
    rintro rfl
    cases hother
  have hlast := List.getLast?_eq_some_getLast hne
  have hne' : c.blocks ≠ [] := by
    intro hnil
    rw [Chain.first?, hnil] at hfirst
    cases hfirst
  have htail : c.tail? = some (c.blocks.getLast hne') :=
    List.getLast?_eq_some_getLast hne'
  have hknown : isKnown c candidate = false := by
    apply isKnown_eq_false (List.mem_of_head? hother)
    intro b hb
    rw [hzero] at hb
    have hget : c.blocks[0]? = some b := (Option.filter_eq_some_iff.mp hb).1
    rw [Chain.first?, List.head?_eq_getElem?, hget] at hfirst
    obtain rfl := Option.some.inj hfirst
    exact fun heq => hhash heq.symm
  have hplace : placement c (c.blocks.getLast hne') other (candidate.getLast hne)
      candidate = some (.replace (.full candidate)) := by
    simp only [placement, hknown, hzero, Bool.false_eq_true, if_false, if_true]
  rw [reconcile_of_tail policy htail hother hlast hsequence, hplace]

/-- A candidate that ousts the first block takes the place of the chain. -/
theorem blocks_deliver_of_ousts : (policy.deliver c candidate).blocks = candidate := by
  rw [deliver_of_replace (reconcile_of_ousts hfirst policy h)]
  obtain ⟨hcomplete, other, hother, -, -⟩ := h
  have hne : candidate ≠ [] := List.ne_nil_of_mem (List.mem_of_head? hother)
  change (Replacement.applyFull c candidate).chain.blocks = candidate
  rw [Replacement.applyFull_chain, if_pos ⟨hcomplete, hne⟩]

end

/-- Any other candidate leaves the hash of the first block alone. -/
theorem firstHash_deliver_of_not_ousts {c : Chain} (hc : c.Sound) {h : String}
    (hfirst : c.first?.map Block.hash = some h) (policy : Reconciler)
    {candidate : List Block} (hcandidate : ¬ Ousts h candidate) :
    (policy.deliver c candidate).first?.map Block.hash = some h := by
  rcases deliver_cases policy c candidate with ⟨r, hresult, hdeliver⟩ | hdeliver
  · rw [hdeliver]
    obtain ⟨_, first, hhead, hshape⟩ := reconcile_replace hresult
    rcases hshape with ⟨hzero, rfl⟩ | ⟨hzero, rfl⟩
    · change (Replacement.applyFull c candidate).chain.first?.map Block.hash = some h
      rw [Replacement.applyFull_chain]
      by_cases hcomplete : Replacement.isComplete candidate = true ∧ candidate ≠ []
      · rw [if_pos hcomplete, Chain.first?, hhead, Option.map_some]
        by_contra hne
        exact hcandidate ⟨hcomplete.1, first, hhead, hzero, fun heq => hne (by rw [heq])⟩
      · rw [if_neg hcomplete]
        exact hfirst
    · change (Replacement.applySplice c first.index candidate).chain.first?.map
        Block.hash = some h
      rcases Replacement.applySplice_chain c first.index candidate with hsame | hextended
      · rw [hsame]
        exact hfirst
      · rw [hextended, Chain.first?_extend (hc.kept hzero).ne_nil, hc.first?_kept hzero]
        exact hfirst
  · rw [hdeliver]
    rcases reconcile_chain policy c candidate with hsame | hextended
    · rw [hsame]
      exact hfirst
    · rw [hextended, Chain.first?_extend hc.ne_nil]
      exact hfirst

/-- One delivery leaves the hash of the first block alone exactly if the
candidate does not oust it. -/
theorem firstHash_deliver_iff {c : Chain} (hc : c.Sound) {h : String}
    (hfirst : c.first?.map Block.hash = some h) (policy : Reconciler)
    (candidate : List Block) :
    (policy.deliver c candidate).first?.map Block.hash = some h ↔
      ¬ Ousts h candidate := by
  constructor
  · intro hsame housts
    obtain ⟨first, hc', rfl⟩ := Option.map_eq_some_iff.mp hfirst
    have hblocks := blocks_deliver_of_ousts hc' policy housts
    obtain ⟨_, other, hother, _, hhash⟩ := housts
    rw [Chain.first?, hblocks, hother] at hsame
    exact hhash (Option.some.inj hsame)
  · exact firstHash_deliver_of_not_ousts hc hfirst policy

theorem firstHash_steps_iff {c : Chain} (hc : c.Sound) {h : String}
    (hfirst : c.first?.map Block.hash = some h) (policy : Reconciler)
    (candidates : List (List Block)) :
    (∀ n, (policy.deliverAll c (candidates.take n)).first?.map Block.hash = some h) ↔
      ∀ candidate ∈ candidates, ¬ Ousts h candidate := by
  induction candidates generalizing c with
  | nil => simpa [deliverAll] using hfirst
  | cons candidate rest ih =>
      have hstep := firstHash_deliver_iff hc hfirst policy candidate
      constructor
      · intro hall
        have hone := hall 1
        have hcandidate := hstep.mp hone
        have hrest := (ih (sound_deliver hc policy candidate) hone).mp
          fun n => hall (n + 1)
        intro x hx
        rcases List.mem_cons.mp hx with rfl | hx
        · exact hcandidate
        · exact hrest x hx
      · intro hnone n
        cases n with
        | zero => exact hfirst
        | succ n =>
            have hone := hstep.mpr (hnone candidate List.mem_cons_self)
            exact (ih (sound_deliver hc policy candidate) hone).mpr
              (fun x hx => hnone x (List.mem_cons_of_mem candidate hx)) n

/-- Under either policy, a chain whose blocks stand in place keeps the hash of
its first block throughout a run of deliveries exactly if none of the candidates
ousts that block. -/
theorem firstHash_deliverAll_iff {c : Chain} (hc : c.InPlace) {first : Block}
    (hfirst : c.first? = some first) (policy : Reconciler)
    (candidates : List (List Block)) :
    (∀ n, (policy.deliverAll c (candidates.take n)).first?.map Block.hash =
        some first.hash) ↔
      ∀ candidate ∈ candidates, ¬ Ousts first.hash candidate := by
  have hhash : c.first?.map Block.hash = some first.hash := by
    rw [hfirst, Option.map_some]
  exact firstHash_steps_iff hc.sound hhash policy candidates

/-- The first block of another chain. -/
def foreign : Block := Block.unmined 0 "" 1 [] 0 "other"

theorem ousts_foreign : Ousts Block.genesis.hash [foreign] := by
  have hhash : foreign.hash ≠ Block.genesis.hash := by decide +kernel
  refine ⟨(Replacement.isComplete_iff _).mpr ⟨rfl, ?_⟩, foreign, rfl, rfl, hhash⟩
  intro b hb
  rw [List.mem_singleton.mp hb]
  exact Block.isGenuine_unmined _ _ _ _ _

theorem inPlace_start : Chain.start.InPlace :=
  Chain.sound_start.inPlace (by rw [Chain.Fits]; decide)

theorem firstHash_deliverAll_foreign :
    (∀ n, (deliverAll ⟨false⟩ Chain.start ([[foreign]].take n)).first?.map Block.hash =
        some Block.genesis.hash) ↔
      ∀ candidate ∈ [[foreign]], ¬ Ousts Block.genesis.hash candidate :=
  firstHash_deliverAll_iff inPlace_start rfl ⟨false⟩ [[foreign]]

/-- A policy that allows no reset does not keep the first block of a chain. -/
theorem not_firstHash_deliverAll :
    ¬ ∀ (c : Chain) (candidates : List (List Block)), c.InPlace →
      (deliverAll ⟨false⟩ c candidates).first?.map Block.hash =
        c.first?.map Block.hash := by
  intro hall
  have hfirst : Chain.start.first?.map Block.hash = some Block.genesis.hash := rfl
  have hsame := hall Chain.start [[foreign]] inPlace_start
  rw [hfirst, deliverAll, List.foldl_cons, List.foldl_nil] at hsame
  exact (firstHash_deliver_iff Chain.sound_start hfirst ⟨false⟩ [foreign]).mp hsame
    ousts_foreign

end Reconciler

end WorkLedger
