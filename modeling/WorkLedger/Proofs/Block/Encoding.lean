import WorkLedger.Block.Json
import WorkLedger.Proofs.Amount.Bounded
import WorkLedger.Proofs.Decimal.Leading
import WorkLedger.Proofs.Json.Records

/-!
# Blocks read back

A block is read back from JSON, if its amounts are read back from their numerals. Not
all amounts are. Whatever block is read, its amounts are finite.
-/

namespace WorkLedger

/-- An amount is read back from its numeral, if it has one. -/
def Amount.ReadsBack (x : Float) : Prop := ∀ n, numeral? x = some n → n.toFloat = x

namespace Amount

theorem divided_of_le (x : Float) {n : ℕ} (h : n ≤ Decimal.largestExponent) :
    Decimal.divided x n = x / Decimal.tenTo n := by
  rw [Decimal.divided, if_pos h]

theorem readsBack_reward : ReadsBack Transaction.reward := by
  have hnumeral : numeral? Transaction.reward = some ⟨false, [5, 7], [0], none⟩ := by
    decide +kernel
  intro n hn
  obtain rfl := Option.some.inj (hnumeral.symm.trans hn)
  change Decimal.divided (Float.ofNat 570) 1 = Transaction.reward
  rw [divided_of_le _ (by decide)]
  decide +kernel

/-- The float nearest to `3e-70` is not read back, because a power of ten is rounded before
it divides. -/
theorem not_readsBack : ¬ ReadsBack (Float.ofBits 0x3180906ed62b6836) := by
  have hnumeral : numeral? (Float.ofBits 0x3180906ed62b6836) =
      some ⟨false, [3], [], some ⟨true, [7, 0]⟩⟩ := by
    decide +kernel
  intro h
  have hread : Decimal.divided (Float.ofNat 3) 70 = Float.ofBits 0x3180906ed62b6836 :=
    h _ hnumeral
  rw [divided_of_le _ (by decide)] at hread
  exact absurd hread (by decide +kernel)

end Amount

namespace Json

theorem isProper_nat (n : ℕ) : (nat n).IsProper := Numeral.isProper_ofNat n

theorem nat_ne_null (n : ℕ) : nat n ≠ .null := nofun

end Json

namespace Decoder

theorem reads_text (s : String) : text.Reads (.string s) s := ⟨trivial, rfl⟩

theorem below_nat {bound n : ℕ} (h : n < bound) : below bound (.nat n) = .ok n := by
  have hvalue : (Numeral.ofNat n).toNat? = some n :=
    (if_pos ⟨rfl, rfl, rfl⟩).trans (congrArg some (Decimal.value_natDigits n))
  simp only [below, Json.nat, hvalue, if_pos h]

theorem reads_word64 (w : UInt64) : word64.Reads (.nat w.toNat) w := by
  refine ⟨Json.isProper_nat _, ?_⟩
  rw [word64, below_nat w.toNat_lt]
  exact congrArg Except.ok (UInt64.ofNat_toNat)

theorem reads_word32 (w : UInt32) : word32.Reads (.nat w.toNat) w := by
  refine ⟨Json.isProper_nat _, ?_⟩
  rw [word32, below_nat w.toNat_lt]
  exact congrArg Except.ok (UInt32.ofNat_toNat)

theorem reads_number {n : Numeral} (hn : n.IsProper) {x : Float} (hread : n.toFloat = x)
    (hx : x.isFinite = true) : amount.Reads (.number n) x := by
  refine ⟨hn, ?_⟩
  rw [amount, hread, if_pos hx]

/-- An amount is read from its numeral as what the numeral stands for. -/
theorem reads_amount_of_numeral {x y : Float} {n : Numeral} (hn : Amount.numeral? x = some n)
    (hread : n.toFloat = y) (hy : y.isFinite = true) : amount.Reads (.amount x) y := by
  rw [Json.amount, hn]
  exact reads_number (Decimal.Layout.isProper_ofFloat? hn) hread hy

section

variable {x : Float} (hx : x.isFinite = true) (hback : Amount.ReadsBack x)

include hx

theorem amount_ne_null : Json.amount x ≠ .null := by
  obtain ⟨n, hn⟩ := Amount.exists_numeral hx
  rw [Json.amount, hn]
  nofun

include hback

theorem reads_amount : amount.Reads (.amount x) x := by
  obtain ⟨n, hn⟩ := Amount.exists_numeral hx
  exact reads_amount_of_numeral hn (hback n hn) hx

end

theorem isFinite_of_amount {j : Json} {x : Float} (h : amount j = .ok x) : x.isFinite = true := by
  cases j with
  | number n =>
      rw [amount] at h
      split at h
      next hfinite =>
        cases h
        exact hfinite
      next => cases h
  | null | bool | string | array | object | broken => cases h

end Decoder

/-- The amounts of a transaction: those that its inputs show, and those of its outputs. -/
def Transaction.amounts (tx : Transaction) : List Float :=
  tx.ins.filterMap TxIn.amount ++ tx.outs.map TxOut.amount

/-- The amounts of a block. -/
def Block.amounts (b : Block) : List Float := b.transactions.flatMap Transaction.amounts

theorem TxIn.reads_decoder (i : TxIn)
    (h : ∀ x ∈ i.amount, x.isFinite = true ∧ Amount.ReadsBack x) :
    TxIn.decoder.Reads i.toJson i :=
  Record.reads_ofConstructor (fun block tx out => TxIn.mk ⟨block, tx, out⟩)
    |>.required "blockIndex" (by decide) (Decoder.reads_word64 i.point.block)
    |>.required "txIndex" (by decide) (Decoder.reads_word64 i.point.tx)
    |>.required "txOutIndex" (by decide) (Decoder.reads_word64 i.point.out)
    |>.required "signature" (by decide) (Decoder.reads_text i.signature)
    |>.optional "address" (by decide) i.address Json.string (fun s _ =>
      ⟨nofun, Decoder.reads_text s⟩)
    |>.optional "amount" (by decide) i.amount Json.amount (fun x hx =>
      ⟨Decoder.amount_ne_null (h x hx).1, Decoder.reads_amount (h x hx).1 (h x hx).2⟩)
    |>.decoder

theorem TxOut.reads_decoder (o : TxOut) (hfinite : o.amount.isFinite = true)
    (hback : Amount.ReadsBack o.amount) : TxOut.decoder.Reads o.toJson o :=
  Record.reads_ofConstructor TxOut.mk
    |>.required "address" (by decide) (Decoder.reads_text o.address)
    |>.required "amount" (by decide) (Decoder.reads_amount hfinite hback)
    |>.decoder

theorem Transaction.reads_decoder (tx : Transaction)
    (h : ∀ x ∈ tx.amounts, x.isFinite = true ∧ Amount.ReadsBack x) :
    Transaction.decoder.Reads tx.toJson tx := by
  have hins : ∀ i ∈ tx.ins, TxIn.decoder.Reads i.toJson i := fun i hi =>
    i.reads_decoder fun x hx =>
      h x (List.mem_append_left _ (List.mem_filterMap.mpr ⟨i, hi, hx⟩))
  have houts : ∀ o ∈ tx.outs, TxOut.decoder.Reads o.toJson o := fun o ho =>
    have hamount := h o.amount (List.mem_append_right _ (List.mem_map_of_mem ho))
    o.reads_decoder hamount.1 hamount.2
  exact Record.reads_ofConstructor Transaction.mk
    |>.required "id" (by decide) (Decoder.reads_text tx.id)
    |>.required "txIns" (by decide) (Decoder.reads_list hins)
    |>.required "txOuts" (by decide) (Decoder.reads_list houts)
    |>.decoder

/-- A block with finite amounts that are read back is read back. -/
theorem Block.reads_decoder (b : Block)
    (h : ∀ x ∈ b.amounts, x.isFinite = true ∧ Amount.ReadsBack x) :
    Block.decoder.Reads b.toJson b := by
  have htxs : ∀ tx ∈ b.transactions, Transaction.decoder.Reads tx.toJson tx := fun tx htx =>
    tx.reads_decoder fun x hx => h x (List.mem_flatMap.mpr ⟨tx, htx, hx⟩)
  exact Record.reads_ofConstructor Block.mk
    |>.required "index" (by decide) (Decoder.reads_word64 b.index)
    |>.required "previousHash" (by decide) (Decoder.reads_text b.previousHash)
    |>.required "hash" (by decide) (Decoder.reads_text b.hash)
    |>.required "timestamp" (by decide) (Decoder.reads_word64 b.timestamp)
    |>.required "difficulty" (by decide) (Decoder.reads_word32 b.difficulty)
    |>.required "nonce" (by decide) (Decoder.reads_word64 b.nonce)
    |>.required "minerId" (by decide) (Decoder.reads_text b.minerId)
    |>.required "transactions" (by decide) (Decoder.reads_list htxs)
    |>.decoder

theorem TxIn.isFinite_of_decoder {j : Json} {i : TxIn} (h : TxIn.decoder j = .ok i) :
    ∀ x ∈ i.amount, x.isFinite = true := by
  refine Record.Ensures.decoder (Q := fun i => ∀ x ∈ i.amount, x.isFinite = true) ?_ h
  refine .field (P := fun o => ∀ x ∈ o, x.isFinite = true) ?_
    (fun j o ho => Decoder.of_nullable (fun _ _ => Decoder.isFinite_of_amount) ho) ?_
  · exact .any (.any (.any (.any (.any (Record.ensures_ofConstructor fun _ _ _ _ _ _ ho => ho)))))
  · rintro o ho x hx
    cases ho
    cases hx

theorem TxOut.isFinite_of_decoder {j : Json} {o : TxOut} (h : TxOut.decoder j = .ok o) :
    o.amount.isFinite = true := by
  refine Record.Ensures.decoder (Q := fun o => o.amount.isFinite = true) ?_ h
  exact .field (.any (Record.ensures_ofConstructor fun _ _ hx => hx))
    (fun _ _ => Decoder.isFinite_of_amount) nofun

theorem Transaction.isFinite_of_decoder {j : Json} {tx : Transaction}
    (h : Transaction.decoder j = .ok tx) : ∀ x ∈ tx.amounts, x.isFinite = true := by
  refine Record.Ensures.decoder (Q := fun tx => ∀ x ∈ tx.amounts, x.isFinite = true) ?_ h
  refine .field (.field (.any (Record.ensures_ofConstructor ?_))
    (fun _ _ => Decoder.of_list fun _ _ => TxIn.isFinite_of_decoder) nofun)
    (fun _ _ => Decoder.of_list fun _ _ => TxOut.isFinite_of_decoder) nofun
  intro id ins hins outs houts x hx
  rcases List.mem_append.mp hx with hin | hout
  · obtain ⟨i, hi, hamount⟩ := List.mem_filterMap.mp hin
    exact hins i hi x hamount
  · obtain ⟨o, ho, rfl⟩ := List.mem_map.mp hout
    exact houts o ho

/-- The amounts of a block that was read are finite. -/
theorem Block.isFinite_of_decoder {j : Json} {b : Block} (h : Block.decoder j = .ok b) :
    ∀ x ∈ b.amounts, x.isFinite = true := by
  refine Record.Ensures.decoder (Q := fun b => ∀ x ∈ b.amounts, x.isFinite = true) ?_ h
  refine .field (.any (.any (.any (.any (.any (.any (.any (Record.ensures_ofConstructor ?_))))))))
    (fun _ _ => Decoder.of_list fun _ _ => Transaction.isFinite_of_decoder) nofun
  intro _ _ _ _ _ _ _ txs htxs x hx
  obtain ⟨tx, htx, hamount⟩ := List.mem_flatMap.mp hx
  exact htxs tx htx x hamount

end WorkLedger
