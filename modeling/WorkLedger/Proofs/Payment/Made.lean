import Mathlib.Data.List.Basic
import WorkLedger.Payment
import WorkLedger.Proofs.Unspent.Replay

/-!
# Payments that are made

A payment is made exactly if every check passes (`make_eq_ok_iff`). It then spends
outputs of the sender, from the first one on, in the order of the chain. Each input
has a signature, so no payment has the form of a coinbase.
-/

namespace WorkLedger

/-- A transaction with signed inputs only does not have the form of a coinbase. -/
theorem Transaction.isCoinbase_of_signed {tx : Transaction}
    (h : ∀ i ∈ tx.ins, i.signature.isEmpty = false) : tx.isCoinbase = false := by
  rw [isCoinbase]
  split
  · next i _ hins _ => exact h i (by rw [hins]; exact List.mem_singleton_self i)
  · rfl

namespace Payment

theorem selectFrom_isPrefix (amount total : Float) (us : List UnspentOutput) :
    (selectFrom amount total us).1 <+: us := by
  induction us generalizing total with
  | nil => exact List.prefix_rfl
  | cons u rest ih =>
      simp only [selectFrom]
      split
      · exact ⟨rest, rfl⟩
      · exact (List.prefix_cons_inj u).mpr (ih (total + u.amount))

/-- Something is selected if there is something to select from. -/
theorem selectFrom_ne_nil (amount total : Float) {us : List UnspentOutput} (h : us ≠ []) :
    (selectFrom amount total us).1 ≠ [] := by
  obtain ⟨u, rest, rfl⟩ := List.exists_cons_of_ne_nil h
  simp only [selectFrom]
  split <;> exact List.cons_ne_nil _ _

/-- The total of a selection adds up what is selected, from the left. -/
theorem selectFrom_total (amount total : Float) (us : List UnspentOutput) :
    (selectFrom amount total us).2 =
      ((selectFrom amount total us).1.map UnspentOutput.amount).foldl (· + ·) total := by
  induction us generalizing total with
  | nil => rfl
  | cons u rest ih =>
      simp only [selectFrom]
      split
      · rfl
      · exact ih (total + u.amount)

/-- A payment is made exactly if the amount is positive and finite, the key is one,
the receiver is somebody else, and the unspent outputs of the sender reach the
amount. -/
theorem make_eq_ok_iff {c : Chain} {privateKey receiver : String} {amount : Float}
    {tx : Transaction} :
    make c privateKey receiver amount = .ok tx ↔
      (amount.isFinite = true ∧ ¬ amount ≤ 0) ∧ ∃ key, KeyPair.ofHex privateKey = .ok key ∧
        Text.equalIgnoringCase receiver key.address = false ∧ c.unspent key.address ≠ [] ∧
        ¬ (select amount (c.unspent key.address)).2 < amount ∧
        tx = ⟨"", (select amount (c.unspent key.address)).1.map (signedInput key),
          outputs key.address receiver amount (select amount (c.unspent key.address)).2⟩ := by
  unfold make
  by_cases hamount : amount.isFinite = true ∧ ¬ amount ≤ 0
  · rw [if_neg (by simpa [Bool.not_eq_true'] using hamount)]
    cases hkey : KeyPair.ofHex privateKey with
    | error cause => simp
    | ok key =>
        cases hsame : Text.equalIgnoringCase receiver key.address with
        | true => simp [hsame]
        | false =>
            cases hunspent : c.unspent key.address with
            | nil => simp [hsame, hunspent]
            | cons u rest =>
                by_cases hshort : (select amount (u :: rest)).2 < amount
                · simp [hsame, hunspent, hshort]
                · simpa [hsame, hunspent, hshort, hamount] using eq_comm
  · have hfails : (!amount.isFinite || decide (amount ≤ 0)) = true := by
      by_contra hpasses
      simp only [Bool.or_eq_true, Bool.not_eq_true', decide_eq_true_eq, not_or,
        Bool.not_eq_false] at hpasses
      exact hamount hpasses
    rw [if_pos (by simpa using hfails)]
    simp [hamount]

theorem isEmpty_signature (k : KeyPair) (u : UnspentOutput) :
    (signedInput k u).signature.isEmpty = false := by
  have hlength : (signedInput k u).signature.length = 128 := by
    simp [signedInput, TxIn.unresolved, Hex.encode, ← String.length_toList]
  rw [Bool.eq_false_iff, Ne, String.isEmpty_iff]
  intro hempty
  rw [hempty] at hlength
  cases hlength

section

variable {c : Chain} {privateKey receiver : String} {amount : Float} {tx : Transaction}
  (h : make c privateKey receiver amount = .ok tx)

include h

theorem isCoinbase_of_make : tx.isCoinbase = false := by
  obtain ⟨_, key, _, _, _, _, rfl⟩ := make_eq_ok_iff.mp h
  apply Transaction.isCoinbase_of_signed
  intro i hi
  obtain ⟨u, _, rfl⟩ := List.mem_map.mp hi
  exact isEmpty_signature key u

theorem ins_ne_nil_of_make : tx.ins ≠ [] := by
  obtain ⟨_, key, _, _, hunspent, _, rfl⟩ := make_eq_ok_iff.mp h
  exact mt List.map_eq_nil_iff.mp (selectFrom_ne_nil amount 0 hunspent)

/-- The inputs of a payment point at unspent outputs of its sender. -/
theorem exists_unspent_of_make {i : TxIn} (hi : i ∈ tx.ins) :
    ∃ key, KeyPair.ofHex privateKey = .ok key ∧
      ∃ u ∈ c.unspent key.address, u.point = i.point := by
  obtain ⟨_, key, hkey, _, _, _, rfl⟩ := make_eq_ok_iff.mp h
  obtain ⟨u, hu, rfl⟩ := List.mem_map.mp hi
  exact ⟨key, hkey, u, (selectFrom_isPrefix amount 0 _).subset hu, rfl⟩

end

/-- Somebody with a single unspent output can pay up to its amount. -/
theorem make_of_single {c : Chain} {privateKey receiver : String} {key : KeyPair}
    (hkey : KeyPair.ofHex privateKey = .ok key) {point : OutPoint} {held amount : Float}
    (hunspent : c.unspent key.address = [⟨point, key.address, held⟩])
    (hother : Text.equalIgnoringCase receiver key.address = false)
    (hamount : amount.isFinite = true ∧ ¬ amount ≤ 0)
    (hreached : 0 + held ≥ amount ∧ ¬ 0 + held < amount) :
    make c privateKey receiver amount = .ok ⟨"", [signedInput key ⟨point, key.address, held⟩],
      outputs key.address receiver amount (0 + held)⟩ := by
  have hselect : select amount (c.unspent key.address) =
      ([⟨point, key.address, held⟩], 0 + held) := by
    rw [hunspent, select, selectFrom, if_pos hreached.1]
  rw [make_eq_ok_iff]
  refine ⟨hamount, key, hkey, hother, ?_, ?_, ?_⟩
  · rw [hunspent]
    exact List.cons_ne_nil _ _
  · rw [hselect]
    exact hreached.2
  · rw [hselect]
    rfl

end Payment

namespace KeyPair

/-- The smallest private key in hexadecimal. -/
def smallestHex : String := "0000000000000000000000000000000000000000000000000000000000000001"

/-- The pair of the smallest private key. -/
def smallest : KeyPair := ofSecret 1

theorem ofHex_smallestHex : ofHex smallestHex = .ok smallest := by
  have hsecret : (Hex.decode? (Text.trim smallestHex)).bind secretOfBytes? = some 1 := by
    decide +kernel
  rw [ofHex, hsecret]
  rfl

theorem address_smallest : smallest.address = "1BgGZ9tcN4rm9KBzDn7KprQz87SZ26SAMH" := by
  decide +kernel

end KeyPair

end WorkLedger
