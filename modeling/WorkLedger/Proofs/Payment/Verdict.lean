import Mathlib.Data.List.Infix
import WorkLedger.Proofs.Amount.Order
import WorkLedger.Proofs.Payment.Made

/-!
# The verdict on a payment

Five conditions are looked at one after the other, and the first that holds is the error of the
payment. If none holds, the payment spends the shortest front part of the sender's unspent outputs
whose total reaches the amount. Totals are added from the left, so they need not grow with the front
part; the selection stops at the first that reaches the amount all the same.
-/

namespace WorkLedger

namespace KeyPair

/-- A text is the private key `n` if it is thirty-two bytes in hexadecimal, up to blanks around
them, whose number `n` lies between zero and the order of the curve. -/
def IsSecret (text : String) (n : ℕ) : Prop :=
  ∃ bytes, Hex.decode? (Text.trim text) = some bytes ∧ bytes.length = 32 ∧
    BigEndian.toNat bytes = n ∧ 0 < n ∧ n < Secp256k1.order

theorem secretOfBytes?_eq_some_iff {bytes : List UInt8} {n : ℕ} :
    secretOfBytes? bytes = some n ↔
      bytes.length = 32 ∧ BigEndian.toNat bytes = n ∧ 0 < n ∧ n < Secp256k1.order := by
  simp only [secretOfBytes?, Option.ite_none_right_eq_some, Option.some.injEq]
  constructor
  · rintro ⟨⟨hlength, hpos, hlt⟩, rfl⟩
    exact ⟨hlength, rfl, hpos, hlt⟩
  · rintro ⟨hlength, rfl, hpos, hlt⟩
    exact ⟨⟨hlength, hpos, hlt⟩, rfl⟩

theorem isSecret_iff {text : String} {n : ℕ} :
    IsSecret text n ↔ (Hex.decode? (Text.trim text)).bind secretOfBytes? = some n := by
  simp only [IsSecret, Option.bind_eq_some_iff, secretOfBytes?_eq_some_iff]

theorem ofHex_of_isSecret {text : String} {n : ℕ} (h : IsSecret text n) :
    ofHex text = .ok (ofSecret n) := by
  rw [ofHex, isSecret_iff.mp h]

theorem ofHex_of_forall_not {text : String} (h : ¬ ∃ n, IsSecret text n) :
    ofHex text = .error .invalidPrivateKey := by
  have hnone : (Hex.decode? (Text.trim text)).bind secretOfBytes? = none := by
    rw [Option.eq_none_iff_forall_ne_some]
    exact fun n hn => h ⟨n, isSecret_iff.mpr hn⟩
  rw [ofHex, hnone]

theorem isSecret_smallestHex {n : ℕ} : IsSecret smallestHex n ↔ n = 1 := by
  have hsecret : (Hex.decode? (Text.trim smallestHex)).bind secretOfBytes? = some 1 := by
    decide +kernel
  rw [isSecret_iff, hsecret, Option.some.injEq, eq_comm]

/-- An address starts with the character of its version byte. -/
theorem address_ne_empty (k : KeyPair) : k.address ≠ "" := by
  intro hempty
  have hlist := congrArg String.toList hempty
  rw [address, Base58.encode, String.toList_ofList, List.cons_append,
    List.takeWhile_cons_of_pos (by rfl), List.map_cons, List.cons_append] at hlist
  cases hlist

end KeyPair

theorem Placed.paysTo_of_mem_replay {address : String} {ps : List Placed} {u : UnspentOutput}
    (h : u ∈ replay address ps) : u.paysTo address = true := by
  induction ps using List.reverseRecOn with
  | nil => cases h
  | append_singleton ps p ih =>
      rw [replay_append_singleton, apply_eq] at h
      rcases UnspentOutput.mem_of_mem_foldl_insert (List.mem_of_mem_filter h) with hold | hnew
      · exact ih hold
      · exact (List.mem_filter.mp hnew).2

namespace Chain

theorem nodup_points_unspent (c : Chain) (address : String) :
    ((c.unspent address).map UnspentOutput.point).Nodup := by
  rw [unspent_eq_replay]
  exact (Placed.sorted_replay address c.placed).nodup_points

theorem address_of_mem_unspent {c : Chain} {address : String} (hne : address ≠ "")
    {u : UnspentOutput} (h : u ∈ c.unspent address) : u.address = address := by
  rw [unspent_eq_replay] at h
  rcases (UnspentOutput.paysTo_iff address u).mp (Placed.paysTo_of_mem_replay h) with hempty | hpays
  · exact absurd hempty hne
  · exact hpays

end Chain

namespace Payment

/-- The total of some outputs, added from the left. -/
def total (us : List UnspentOutput) : Float := (us.map UnspentOutput.amount).foldl (· + ·) 0

section

variable {amount start : Float} {us ws : List UnspentOutput}

/-- A front part that reaches the amount has the selection in front. -/
theorem selectFrom_isPrefix_of_reached (hstart : ¬ amount ≤ start) (hws : ws <+: us)
    (hreached : amount ≤ (ws.map UnspentOutput.amount).foldl (· + ·) start) :
    (selectFrom amount start us).1 <+: ws := by
  induction us generalizing start ws with
  | nil =>
      rw [List.prefix_nil.mp hws]
      exact List.prefix_rfl
  | cons u us ih =>
      cases ws with
      | nil => exact absurd hreached hstart
      | cons w ws =>
          obtain ⟨rfl, hrest⟩ := List.cons_prefix_cons.mp hws
          simp only [selectFrom]
          split
          · exact (List.prefix_cons_inj w).mpr (List.nil_prefix)
          · next hshort => exact (List.prefix_cons_inj w).mpr (ih hshort hrest hreached)

end

/-- A selection either reaches the amount or takes everything. -/
theorem selectFrom_reached_or_all (amount start : Float) (us : List UnspentOutput) :
    amount ≤ (selectFrom amount start us).2 ∨ (selectFrom amount start us).1 = us := by
  induction us generalizing start with
  | nil => exact Or.inr rfl
  | cons u us ih =>
      simp only [selectFrom]
      split
      · next hreached => exact Or.inl hreached
      · exact (ih _).imp id (congrArg (u :: ·))

theorem select_total (amount : Float) (us : List UnspentOutput) :
    (select amount us).2 = total (select amount us).1 :=
  selectFrom_total amount 0 us

theorem reached_select {amount : Float} (hpos : ¬ amount ≤ 0) {us ws : List UnspentOutput}
    (hws : ws <+: us) (hreached : amount ≤ total ws) : amount ≤ total (select amount us).1 := by
  rw [← select_total]
  rcases selectFrom_reached_or_all amount 0 us with h | hall
  · exact h
  · have hall' : ws = us := by
      refine hws.eq_of_length_le ?_
      rw [← congrArg List.length hall]
      exact (selectFrom_isPrefix_of_reached hpos hws hreached).length_le
    rw [select_total, select, hall, ← hall']
    exact hreached

/-- An amount that can be paid. -/
def IsPayable (amount : Float) : Prop := amount.isFinite = true ∧ 0 < amount

theorem isPayable_iff {amount : Float} :
    IsPayable amount ↔ amount.isFinite = true ∧ ¬ amount ≤ 0 :=
  and_congr_right fun hfinite =>
    Amount.lt_iff_not_le (by decide) (Amount.isNumber_of_isFinite hfinite)

/-- A payment from the owner of a key that spends the chosen ones of some unspent outputs. -/
structure Spends (key : KeyPair) (receiver : String) (amount : Float)
    (us chosen : List UnspentOutput) (tx : Transaction) : Prop where
  front : chosen <+: us
  reached : amount ≤ total chosen
  shortest : ∀ ws, ws <+: us → amount ≤ total ws → chosen <+: ws
  id : tx.id = ""
  points : tx.ins.map TxIn.point = chosen.map UnspentOutput.point
  distinct : (tx.ins.map TxIn.point).Nodup
  owned : ∀ u ∈ chosen, u.address = key.address
  signed : ∀ i ∈ tx.ins, i.signature ≠ ""
  outs : tx.outs = ⟨receiver, amount⟩ ::
    if amount < total chosen then [⟨key.address, total chosen - amount⟩] else []
  isCoinbase : tx.isCoinbase = false

/-- What becomes of a payment from the owner of a key if the amount can be paid. -/
structure OwnerVerdict (c : Chain) (key : KeyPair) (receiver : String) (amount : Float)
    (result : Except PaymentError Transaction) : Prop where
  sameAddress : result = .error .sameAddress ↔
    Text.equalIgnoringCase receiver key.address = true
  noFunds : Text.equalIgnoringCase receiver key.address = false →
    (result = .error (.noFunds key.address) ↔ c.unspent key.address = [])
  insufficientFunds : Text.equalIgnoringCase receiver key.address = false →
    c.unspent key.address ≠ [] →
      (result = .error (.insufficientFunds amount (total (c.unspent key.address))) ↔
        ∀ us, us <+: c.unspent key.address → ¬ amount ≤ total us)
  made : Text.equalIgnoringCase receiver key.address = false →
    (∃ us, us <+: c.unspent key.address ∧ amount ≤ total us) →
      ∃ chosen tx, result = .ok tx ∧
        Spends key receiver amount (c.unspent key.address) chosen tx

/-- What becomes of a payment. -/
structure Verdict (c : Chain) (privateKey receiver : String) (amount : Float)
    (result : Except PaymentError Transaction) : Prop where
  invalidAmount : result = .error (.invalidAmount amount) ↔ ¬ IsPayable amount
  invalidKey : IsPayable amount →
    (result = .error (.invalidKey .invalidPrivateKey) ↔ ¬ ∃ n, KeyPair.IsSecret privateKey n)
  ofOwner : IsPayable amount → ∀ n, KeyPair.IsSecret privateKey n →
    OwnerVerdict c (.ofSecret n) receiver amount result

/-- What a payment comes to once the amount and the key are accepted. -/
def ofOwner (c : Chain) (key : KeyPair) (receiver : String) (amount : Float) :
    Except PaymentError Transaction :=
  if Text.equalIgnoringCase receiver key.address then .error .sameAddress
  else if (c.unspent key.address).isEmpty then .error (.noFunds key.address)
  else if (select amount (c.unspent key.address)).2 < amount then
    .error (.insufficientFunds amount (select amount (c.unspent key.address)).2)
  else .ok ⟨"", (select amount (c.unspent key.address)).1.map (signedInput key),
    outputs key.address receiver amount (select amount (c.unspent key.address)).2⟩

section

variable {c : Chain} {privateKey receiver : String} {amount : Float}

theorem make_of_not_isPayable (h : ¬ IsPayable amount) :
    make c privateKey receiver amount = .error (.invalidAmount amount) := by
  have hrefused : (!amount.isFinite || decide (amount ≤ 0)) = true := by
    by_contra haccepted
    simp only [Bool.or_eq_true, Bool.not_eq_true', decide_eq_true_eq, not_or,
      Bool.not_eq_false] at haccepted
    exact h (isPayable_iff.mpr haccepted)
  rw [make, if_pos (by simpa using hrefused)]

theorem make_of_isPayable (h : IsPayable amount) :
    make c privateKey receiver amount = match KeyPair.ofHex privateKey with
      | .error cause => .error (.invalidKey cause)
      | .ok key => ofOwner c key receiver amount := by
  rw [make, if_neg (by simpa [Bool.not_eq_true'] using isPayable_iff.mp h)]
  cases KeyPair.ofHex privateKey with
  | error cause => rfl
  | ok key =>
      simp only [ofOwner]
      cases c.unspent key.address with
      | nil => rfl
      | cons u rest => rfl

end

section

variable {c : Chain} {key : KeyPair} {receiver : String} {amount : Float}

theorem spends_select (hpos : ¬ amount ≤ 0) {us : List UnspentOutput}
    (hus : us = c.unspent key.address) (hreached : amount ≤ total (select amount us).1) :
    Spends key receiver amount us (select amount us).1
      ⟨"", (select amount us).1.map (signedInput key),
        outputs key.address receiver amount (select amount us).2⟩ := by
  have hfront : (select amount us).1 <+: us := selectFrom_isPrefix amount 0 us
  have hpoints : ((select amount us).1.map (signedInput key)).map TxIn.point =
      (select amount us).1.map UnspentOutput.point := by
    rw [List.map_map]
    rfl
  have hsigned : ∀ i ∈ (select amount us).1.map (signedInput key), i.signature.isEmpty = false := by
    intro i hi
    obtain ⟨u, _, rfl⟩ := List.mem_map.mp hi
    exact isEmpty_signature key u
  exact {
    front := hfront
    reached := hreached
    shortest := fun ws hws hws' => selectFrom_isPrefix_of_reached hpos hws hws'
    id := rfl
    points := hpoints
    distinct := by
      rw [hpoints]
      have hall := c.nodup_points_unspent key.address
      rw [← hus] at hall
      exact hall.sublist (hfront.sublist.map _)
    owned := by
      intro u hu
      refine Chain.address_of_mem_unspent key.address_ne_empty (c := c) ?_
      rw [← hus]
      exact hfront.subset hu
    signed := by
      intro i hi hempty
      have := hsigned i hi
      rw [hempty] at this
      cases this
    outs := by rw [outputs, select_total]
    isCoinbase := Transaction.isCoinbase_of_signed hsigned }

theorem ofOwner_error_cases {e : PaymentError}
    (h : ofOwner c key receiver amount = .error e) :
    e = .sameAddress ∨ e = .noFunds key.address ∨ ∃ held, e = .insufficientFunds amount held := by
  unfold ofOwner at h
  split at h
  · exact Or.inl (Except.error.inj h).symm
  · split at h
    · exact Or.inr (Or.inl (Except.error.inj h).symm)
    · split at h
      · exact Or.inr (Or.inr ⟨_, (Except.error.inj h).symm⟩)
      · cases h

theorem ofOwner_eq_sameAddress_iff :
    ofOwner c key receiver amount = .error .sameAddress ↔
      Text.equalIgnoringCase receiver key.address = true := by
  rw [ofOwner, ite_eq_left_iff]
  refine ⟨fun h => ?_, fun h hnot => absurd h hnot⟩
  by_contra hother
  have hlater := h hother
  split at hlater
  · cases hlater
  · split at hlater <;> cases hlater

section

variable (hother : Text.equalIgnoringCase receiver key.address = false)

include hother

theorem ofOwner_eq_noFunds_iff :
    ofOwner c key receiver amount = .error (.noFunds key.address) ↔
      c.unspent key.address = [] := by
  rw [ofOwner, if_neg (by simp [hother]), ite_eq_left_iff, List.isEmpty_iff]
  refine ⟨fun h => ?_, fun h hnot => absurd h hnot⟩
  by_contra hfunds
  have hlater := h hfunds
  split at hlater <;> cases hlater

variable (hfunds : c.unspent key.address ≠ [])

include hfunds

theorem ofOwner_of_funds :
    ofOwner c key receiver amount =
      if total (select amount (c.unspent key.address)).1 < amount then
        .error (.insufficientFunds amount (total (select amount (c.unspent key.address)).1))
      else .ok ⟨"", (select amount (c.unspent key.address)).1.map (signedInput key),
        outputs key.address receiver amount (select amount (c.unspent key.address)).2⟩ := by
  rw [ofOwner, if_neg (by simp [hother]), if_neg (by simpa [List.isEmpty_iff] using hfunds),
    select_total]

theorem ofOwner_eq_insufficientFunds_iff (hpos : ¬ amount ≤ 0)
    (hnumber : Amount.IsNumber amount)
    (htotals : ∀ us, us <+: c.unspent key.address → Amount.IsNumber (total us)) :
    ofOwner c key receiver amount =
        .error (.insufficientFunds amount (total (c.unspent key.address))) ↔
      ∀ us, us <+: c.unspent key.address → ¬ amount ≤ total us := by
  have hfront : (select amount (c.unspent key.address)).1 <+: c.unspent key.address :=
    selectFrom_isPrefix amount 0 _
  have hshort := Amount.lt_iff_not_le (htotals _ hfront) hnumber
  rw [ofOwner_of_funds hother hfunds]
  constructor
  · intro h us hus hreached
    rw [if_neg fun hlt => hshort.mp hlt (reached_select hpos hus hreached)] at h
    cases h
  · intro hnone
    have hall : (select amount (c.unspent key.address)).1 = c.unspent key.address := by
      refine (selectFrom_reached_or_all amount 0 _).resolve_left fun hreached => hnone _ hfront ?_
      rwa [← select_total]
    rw [if_pos (hshort.mpr (hnone _ hfront)), hall]

end

/-- What the owner's payment comes to if no total of a front part fails to be a number. -/
theorem ownerVerdict_ofOwner (hpay : IsPayable amount)
    (htotals : ∀ us, us <+: c.unspent key.address → Amount.IsNumber (total us)) :
    OwnerVerdict c key receiver amount (ofOwner c key receiver amount) := by
  have hpos := (isPayable_iff.mp hpay).2
  have hnumber := Amount.isNumber_of_isFinite hpay.1
  exact {
    sameAddress := ofOwner_eq_sameAddress_iff
    noFunds := ofOwner_eq_noFunds_iff
    insufficientFunds := fun hother hfunds =>
      ofOwner_eq_insufficientFunds_iff hother hfunds hpos hnumber htotals
    made := by
      rintro hother ⟨us, hus, hreached⟩
      have hfunds : c.unspent key.address ≠ [] := by
        intro hempty
        rw [hempty, List.prefix_nil] at hus
        rw [hus] at hreached
        exact hpos hreached
      have hselected := reached_select hpos hus hreached
      refine ⟨_, _, ?_, spends_select hpos rfl hselected⟩
      rw [ofOwner_of_funds hother hfunds, if_neg (Amount.not_lt_of_le hselected)] }

end

/-- The errors of a payment come in their order, each exactly under its condition. A payment that
passes them spends the shortest front part of the sender's unspent outputs that reaches the amount,
and returns what is left over. -/
theorem verdict_make (c : Chain) (privateKey receiver : String) (amount : Float)
    (htotals : ∀ n, KeyPair.IsSecret privateKey n →
      ∀ us, us <+: c.unspent (KeyPair.ofSecret n).address → Amount.IsNumber (total us)) :
    Verdict c privateKey receiver amount (make c privateKey receiver amount) where
  invalidAmount := by
    refine ⟨fun h hpay => ?_, make_of_not_isPayable⟩
    rw [make_of_isPayable hpay] at h
    split at h
    · cases h
    · rcases ofOwner_error_cases h with h | h | ⟨_, h⟩ <;> cases h
  invalidKey := by
    intro hpay
    rw [make_of_isPayable hpay]
    refine ⟨?_, fun hnone => by rw [KeyPair.ofHex_of_forall_not hnone]⟩
    rintro h ⟨n, hn⟩
    rw [KeyPair.ofHex_of_isSecret hn] at h
    rcases ofOwner_error_cases h with h | h | ⟨_, h⟩ <;> cases h
  ofOwner := by
    intro hpay n hn
    rw [make_of_isPayable hpay, KeyPair.ofHex_of_isSecret hn]
    exact ownerVerdict_ofOwner hpay (htotals n hn)

/-- A chain with three rewards for the owner of the smallest key. -/
def threeRewards : Chain :=
  Chain.holding [[.coinbase 1 KeyPair.smallest.address], [.coinbase 2 KeyPair.smallest.address],
    [.coinbase 3 KeyPair.smallest.address]]

/-- The reward of the block with the given index. -/
def rewardAt (index : UInt64) : UnspentOutput :=
  ⟨⟨index, 0, 0⟩, KeyPair.smallest.address, Transaction.reward⟩

theorem unspent_threeRewards :
    threeRewards.unspent KeyPair.smallest.address = [rewardAt 1, rewardAt 2, rewardAt 3] := by
  simp only [threeRewards, rewardAt, KeyPair.address_smallest]
  rfl

/-- A payment of seventy takes two of the three rewards, and gives back what is left over. -/
theorem verdict_make_threeRewards :
    (∀ n, KeyPair.IsSecret KeyPair.smallestHex n →
      ∀ us, us <+: threeRewards.unspent (KeyPair.ofSecret n).address →
        Amount.IsNumber (total us)) ∧
      ∃ tx, make threeRewards KeyPair.smallestHex "shop" 70 = .ok tx ∧
        tx.ins.map TxIn.point = [⟨1, 0, 0⟩, ⟨2, 0, 0⟩] ∧
        tx.outs = [⟨"shop", 70⟩, ⟨KeyPair.smallest.address, 44⟩] := by
  have htotals : ∀ n, KeyPair.IsSecret KeyPair.smallestHex n →
      ∀ us, us <+: threeRewards.unspent (KeyPair.ofSecret n).address →
        Amount.IsNumber (total us) := by
    intro n hn us hus
    obtain rfl := KeyPair.isSecret_smallestHex.mp hn
    rw [← KeyPair.smallest, unspent_threeRewards] at hus
    have hfronts : ∀ k < 4, Amount.IsNumber
        (total ([rewardAt 1, rewardAt 2, rewardAt 3].take k)) := by decide
    rw [List.prefix_iff_eq_take.mp hus]
    exact hfronts _ (Nat.lt_succ_of_le hus.length_le)
  refine ⟨htotals, ?_⟩
  have hpay : IsPayable 70 := ⟨by decide, by decide⟩
  have hother : Text.equalIgnoringCase "shop" KeyPair.smallest.address = false := by
    rw [KeyPair.address_smallest]
    decide
  have hverdict := (verdict_make threeRewards KeyPair.smallestHex "shop" 70 htotals).ofOwner hpay 1
    (KeyPair.isSecret_smallestHex.mpr rfl)
  rw [← KeyPair.smallest] at hverdict
  have hreached : (70 : Float) ≤ total [rewardAt 1, rewardAt 2] := by decide
  have hfront : [rewardAt 1, rewardAt 2] <+: threeRewards.unspent KeyPair.smallest.address := by
    rw [unspent_threeRewards]
    exact ⟨[rewardAt 3], rfl⟩
  obtain ⟨chosen, tx, hmade, hspends⟩ := hverdict.made hother ⟨_, hfront, hreached⟩
  have hchosen : chosen = [rewardAt 1, rewardAt 2] := by
    have hshort : ∀ k < 2, ¬ (70 : Float) ≤ total ([rewardAt 1, rewardAt 2].take k) := by decide
    have hprefix := hspends.shortest _ hfront hreached
    refine hprefix.eq_of_length_le (not_lt.mp fun hlt => hshort _ hlt ?_)
    rw [← List.prefix_iff_eq_take.mp hprefix]
    exact hspends.reached
  have htotal : total [rewardAt 1, rewardAt 2] = 114 := by decide +kernel
  have hmore : (70 : Float) < 114 := by decide
  have hleft : (114 : Float) - 70 = 44 := by decide +kernel
  refine ⟨tx, hmade, ?_, ?_⟩
  · rw [hspends.points, hchosen]
    rfl
  · rw [hspends.outs, hchosen, htotal, if_pos hmore, hleft]

end Payment

end WorkLedger
