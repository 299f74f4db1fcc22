import WorkLedger.Proofs.Block.Header
import WorkLedger.Proofs.Chain.Stepwise
import WorkLedger.Proofs.Sync.Reconcile

/-!
# Walking back

A candidate that does not fit makes a node ask for a range in its place. On whatever chain and for
whatever candidate, that range ends where the candidate does and starts below it, and not beyond
the index after the last local one. So a walk that goes on from request to request, each answered
by a candidate that starts where it was asked to, gets down by at least one index with each step
(`Walks.length_le`), and only its first candidate can lie behind a gap.

Indices are words. A candidate that goes on behind the largest index starts over at zero and passes
for a sequence all the same, so the range that it leads to can end below its start
(`not_first_le_last`). That a range is not empty is said of all other candidates: each of their
blocks but the last has a next index.
-/

namespace WorkLedger

namespace Block

end Block

/-- The index that the next block of a chain has, as a number. -/
def Chain.nextIndex (c : Chain) : ℕ :=
  match c.tail? with
  | some tail => tail.index.toNat + 1
  | none => 0

theorem Chain.nextIndex_of_tail {c : Chain} {tail : Block} (htail : c.tail? = some tail) :
    c.nextIndex = tail.index.toNat + 1 := by
  rw [nextIndex, htail]

theorem Chain.nextIndex_of_tail_eq_none {c : Chain} (htail : c.tail? = none) :
    c.nextIndex = 0 := by
  rw [nextIndex, htail]

namespace Reconciler

/-- What a range that is asked for has to do with the chain, and with the first and the last block
of the candidate. -/
structure Asks (c : Chain) (first last : Block) (range : BlockRange) : Prop where
  ends : range.last = last.index
  starts : range.first < first.index
  within : range.first.toNat ≤ c.nextIndex
  /-- It starts right behind the chain exactly if there is a gap before the candidate. -/
  gap : range.first.toNat = c.nextIndex ↔ c.nextIndex < first.index.toNat

section

variable {policy : Reconciler} {c d : Chain} {candidate : List Block} {range : BlockRange}

/-- Whichever of the three ways a range is asked for, it starts below the candidate. -/
theorem asks_of_reconcile (h : policy.reconcile c candidate = (.requestRange range, d)) :
    ∃ first last, candidate.head? = some first ∧ candidate.getLast? = some last ∧
      Asks c first last range := by
  obtain ⟨-, -, first, last, hfirst, hlast, hzero, hends, hstarts⟩ := reconcile_eq_requestRange h
  refine ⟨first, last, hfirst, hlast, ?_⟩
  have hpos : 0 < first.index.toNat :=
    UInt64.lt_iff_toNat_lt.mp (UInt64.pos_iff_ne_zero.mpr hzero)
  rcases hstarts with ⟨hnone, hzero⟩ | ⟨tail, htail, ⟨hnear, -, hbelow⟩ | ⟨hbehind, hgap, hnext⟩⟩
  · have hstart : range.first.toNat = 0 := by rw [hzero, UInt64.toNat_zero]
    have hempty := Chain.nextIndex_of_tail_eq_none hnone
    exact ⟨hends, UInt64.lt_iff_toNat_lt.mpr (by omega), by omega, by omega⟩
  · have hone : (1 : UInt64) ≤ first.index := UInt64.le_iff_toNat_le.mpr hpos
    have hstart : range.first.toNat = first.index.toNat - 1 := by
      rw [hbelow, UInt64.toNat_sub_of_le _ _ hone, UInt64.toNat_one]
    -- Behind the largest index the sum is no word, but then it is no larger than the number.
    have hsum : (tail.index + 1).toNat ≤ c.nextIndex := by
      rw [c.nextIndex_of_tail htail, UInt64.toNat_add]
      exact Nat.mod_le _ _
    have hle := UInt64.le_iff_toNat_le.mp hnear
    exact ⟨hends, UInt64.lt_iff_toNat_lt.mpr (by omega), by omega, by omega⟩
  · have hstart : range.first.toNat = c.nextIndex := by
      rw [hnext, toNat_succ_of_lt hbehind, Chain.nextIndex_of_tail htail]
    have hbeyond : c.nextIndex < first.index.toNat := by
      rw [Ne, ← UInt64.toNat_inj, ← hnext, hstart] at hgap
      have hlt := UInt64.lt_iff_toNat_lt.mp hbehind
      rw [c.nextIndex_of_tail htail] at hgap ⊢
      omega
    exact ⟨hends, UInt64.lt_iff_toNat_lt.mpr (by omega), by omega, by omega⟩

end

end Reconciler

/-- A candidate, and the range that is asked for because of it. -/
structure WalkStep where
  candidate : List Block
  range : BlockRange

namespace Reconciler

/-- A walk back from an index: the first candidate starts there, each candidate leads to the
request of its step, and the next one starts where that request does. -/
def Walks (policy : Reconciler) (c : Chain) : UInt64 → List WalkStep → Prop
  | _, [] => True
  | start, s :: rest =>
    s.candidate.head?.map Block.index = some start ∧
      policy.reconcile c s.candidate = (.requestRange s.range, c) ∧
      policy.Walks c s.range.first rest

section

variable {policy : Reconciler} {c : Chain} {start : UInt64} {steps rest : List WalkStep}
  {s : WalkStep}

theorem walks_cons : policy.Walks c start (s :: rest) ↔
    s.candidate.head?.map Block.index = some start ∧
      policy.reconcile c s.candidate = (.requestRange s.range, c) ∧
      policy.Walks c s.range.first rest := Iff.rfl

theorem Walks.descends (h : policy.Walks c start (s :: rest)) :
    s.range.first.toNat < start.toNat ∧ s.range.first.toNat ≤ c.nextIndex := by
  obtain ⟨hstart, hresult, -⟩ := walks_cons.mp h
  obtain ⟨first, _, hfirst, -, hasks⟩ := asks_of_reconcile hresult
  rw [hfirst] at hstart
  obtain rfl := Option.some.inj hstart
  exact ⟨UInt64.lt_iff_toNat_lt.mp hasks.starts, hasks.within⟩

theorem Walks.reconcile_eq (h : policy.Walks c start steps) :
    ∀ s ∈ steps, policy.reconcile c s.candidate = (.requestRange s.range, c) := by
  induction steps generalizing start with
  | nil => exact fun _ hs => absurd hs List.not_mem_nil
  | cons s rest ih =>
      obtain ⟨-, hresult, hrest⟩ := walks_cons.mp h
      exact List.forall_mem_cons.mpr ⟨hresult, ih hrest⟩

/-- A walk has no more steps than there are indices below its start. -/
theorem Walks.length_le (h : policy.Walks c start steps) : steps.length ≤ start.toNat := by
  induction steps generalizing start with
  | nil => exact Nat.zero_le _
  | cons s rest ih =>
      have hrest := ih (walks_cons.mp h).2.2
      exact Nat.succ_le_of_lt (lt_of_le_of_lt hrest h.descends.1)

end

end Reconciler

end WorkLedger
