import WorkLedger.Bytes.Base58
import WorkLedger.Proofs.Transaction.Payload

/-!
# What the text of an id determines

The id of a transaction in a block is the digest of a text: the index of the block, and behind a bar
each, the points of the inputs and then the addresses and amounts of the outputs. Nothing marks
where the inputs end. But if no address contains a bar or a colon, the text can be split at the
bars, and of the parts behind the index those with two colons are the inputs and those with one
colon are the outputs, whatever floats the amounts are. So the text determines the index, the
points, the addresses, and the amounts as they are written (`idChars_eq_iff`).

Whatever the addresses are, the index and the point of the first input can be read from the text.
-/

namespace WorkLedger

namespace Separator

/-- Fields behind a first one, each with a separator in front, are fields with separators between
them. -/
theorem append_flatMap_eq_intercalate {α : Type*} (s : α) (field : List α)
    (fields : List (List α)) :
    field ++ fields.flatMap (s :: ·) = [s].intercalate (field :: fields) := by
  induction fields generalizing field with
  | nil => simp
  | cons next fields ih =>
      rw [List.intercalate_cons_cons, ← ih next, List.flatMap_cons, List.append_assoc]
      rfl

end Separator

/-- No character of an address separates the parts of a text that is hashed. -/
def IsPlainAddress (address : String) : Prop := '|' ∉ address.toList ∧ ':' ∉ address.toList

theorem Base58.isPlainAddress_encode (bytes : List UInt8) : IsPlainAddress (encode bytes) := by
  have hdigit : ∀ n : Fin 58, digit n ≠ '|' ∧ digit n ≠ ':' := by decide +kernel
  have hplain : ∀ c ∈ (encode bytes).toList, c ≠ '|' ∧ c ≠ ':' := by
    intro c hc
    rw [encode, String.toList_ofList, List.mem_append, List.mem_map, List.mem_map] at hc
    rcases hc with ⟨_, _, rfl⟩ | ⟨n, _, rfl⟩
    · exact hdigit 0
    · exact hdigit n
  exact ⟨fun hbar => (hplain _ hbar).1 rfl, fun hcolon => (hplain _ hcolon).2 rfl⟩

namespace Decimal

theorem bar_not_mem_natChars (n : ℕ) : '|' ∉ natChars n := by
  intro hmem
  have hmark := isMark_of_mem_natChars hmem
  cases hmark

end Decimal

namespace OutPoint

theorem bar_not_mem_chars (p : OutPoint) : '|' ∉ p.chars := by
  simp [chars, Decimal.bar_not_mem_natChars]

theorem count_colon_chars (p : OutPoint) : p.chars.count ':' = 2 := by
  have hnone : ∀ n, (Decimal.natChars n).count ':' = 0 := fun n =>
    List.count_eq_zero.mpr (Decimal.colon_not_mem_natChars n)
  simp [chars, hnone]

theorem chars_injective : Function.Injective chars := by
  intro p q h
  exact (eq_of_chars (x := []) (y := []) (by rw [h])).1

end OutPoint

namespace TxOut

variable {o p : TxOut}

theorem bar_not_mem_chars (ho : IsPlainAddress o.address) : '|' ∉ o.chars := by
  have hamount : '|' ∉ Amount.chars o.amount := by
    intro hmem
    have hmark := Amount.isMark_of_mem_chars hmem
    cases hmark
  simp [chars, ho.1, hamount]

theorem colon_not_mem_amountChars (x : Float) : ':' ∉ Amount.chars x := by
  intro hmem
  have hmark := Amount.isMark_of_mem_chars hmem
  cases hmark

theorem count_colon_chars (ho : IsPlainAddress o.address) : o.chars.count ':' = 1 := by
  have haddress := List.count_eq_zero.mpr ho.2
  have hamount := List.count_eq_zero.mpr (colon_not_mem_amountChars o.amount)
  simp [chars, haddress, hamount]

/-- Outputs with plain addresses are written alike only if they have the same content. -/
theorem content_eq_of_plain (ho : IsPlainAddress o.address) (hp : IsPlainAddress p.address)
    (h : o.chars = p.chars) : o.content = p.content := by
  obtain ⟨haddress, hamount⟩ := Separator.eq_of_first ho.2 hp.2 h
  rw [content, content, Amount.text, Amount.text, hamount, String.toList_injective haddress]

end TxOut

namespace Transaction

/-- The addresses of the outputs of a transaction are plain. -/
def HasPlainAddresses (tx : Transaction) : Prop := ∀ o ∈ tx.outs, IsPlainAddress o.address

/-- The parts of the text of an id, behind the index of the block. -/
def idParts (tx : Transaction) : List (List Char) :=
  tx.ins.map (fun i => i.point.chars) ++ tx.outs.map TxOut.chars

theorem idChars_eq_intercalate (tx : Transaction) (block : UInt64) :
    tx.idChars block = ['|'].intercalate (Decimal.natChars block.toNat :: tx.idParts) := by
  rw [← Separator.append_flatMap_eq_intercalate, idParts, List.flatMap_append, List.flatMap_map,
    List.flatMap_map]
  rfl

theorem bar_not_mem_idParts {tx : Transaction} (htx : tx.HasPlainAddresses) :
    ∀ part ∈ tx.idParts, '|' ∉ part := by
  intro part hpart
  rcases List.mem_append.mp hpart with hin | hout
  · obtain ⟨i, _, rfl⟩ := List.mem_map.mp hin
    exact i.point.bar_not_mem_chars
  · obtain ⟨o, ho, rfl⟩ := List.mem_map.mp hout
    exact TxOut.bar_not_mem_chars (htx o ho)

/-- Splitting the text of an id at the bars gives the index of the block and the parts behind it. -/
theorem splitOn_idChars {tx : Transaction} (htx : tx.HasPlainAddresses) (block : UInt64) :
    (tx.idChars block).splitOn '|' = Decimal.natChars block.toNat :: tx.idParts := by
  rw [idChars_eq_intercalate]
  refine List.splitOn_intercalate '|' ?_ (List.cons_ne_nil _ _)
  exact List.forall_mem_cons.mpr
    ⟨Decimal.bar_not_mem_natChars block.toNat, bar_not_mem_idParts htx⟩

/-- The parts with two colons are the inputs. -/
theorem filter_two_idParts {tx : Transaction} (htx : tx.HasPlainAddresses) :
    tx.idParts.filter (fun part => part.count ':' = 2) = tx.ins.map fun i => i.point.chars := by
  rw [idParts, List.filter_append, List.filter_eq_self.mpr, List.filter_eq_nil_iff.mpr,
    List.append_nil]
  · intro part hpart
    obtain ⟨o, ho, rfl⟩ := List.mem_map.mp hpart
    rw [TxOut.count_colon_chars (htx o ho)]
    decide
  · intro part hpart
    obtain ⟨i, _, rfl⟩ := List.mem_map.mp hpart
    exact decide_eq_true i.point.count_colon_chars

/-- The parts with one colon are the outputs. -/
theorem filter_one_idParts {tx : Transaction} (htx : tx.HasPlainAddresses) :
    tx.idParts.filter (fun part => part.count ':' = 1) = tx.outs.map TxOut.chars := by
  rw [idParts, List.filter_append, List.filter_eq_nil_iff.mpr, List.filter_eq_self.mpr,
    List.nil_append]
  · intro part hpart
    obtain ⟨o, ho, rfl⟩ := List.mem_map.mp hpart
    exact decide_eq_true (TxOut.count_colon_chars (htx o ho))
  · intro part hpart
    obtain ⟨i, _, rfl⟩ := List.mem_map.mp hpart
    rw [i.point.count_colon_chars]
    decide

theorem map_content_of_chars {os ps : List TxOut} (hos : ∀ o ∈ os, IsPlainAddress o.address)
    (hps : ∀ p ∈ ps, IsPlainAddress p.address) (h : os.map TxOut.chars = ps.map TxOut.chars) :
    os.map TxOut.content = ps.map TxOut.content := by
  induction os generalizing ps with
  | nil => rw [List.map_eq_nil_iff.mp h.symm]
  | cons o os ih =>
      cases ps with
      | nil => cases h
      | cons p ps =>
          obtain ⟨ho, hos⟩ := List.forall_mem_cons.mp hos
          obtain ⟨hp, hps⟩ := List.forall_mem_cons.mp hps
          obtain ⟨hhead, htail⟩ := List.cons_eq_cons.mp h
          rw [List.map_cons, List.map_cons, TxOut.content_eq_of_plain ho hp hhead, ih hos hps htail]

theorem idParts_eq_of_content {tx ux : Transaction}
    (hins : tx.ins.map TxIn.point = ux.ins.map TxIn.point)
    (houts : tx.outs.map TxOut.content = ux.outs.map TxOut.content) : tx.idParts = ux.idParts := by
  have hchars : ∀ os : List TxOut, os.map TxOut.chars =
      (os.map TxOut.content).map fun c => c.1.toList ++ ':' :: c.2.toList := by
    intro os
    simp [TxOut.content, TxOut.chars, Amount.text, Function.comp_def]
  have hpoints : ∀ is : List TxIn, is.map (fun i => i.point.chars) =
      (is.map TxIn.point).map OutPoint.chars := by
    intro is
    rw [List.map_map]
    rfl
  rw [idParts, idParts, hpoints, hpoints, hins, hchars, hchars, houts]

/-- With plain addresses, the text of an id is the same exactly for the same index of the block, the
same points of the inputs, and outputs with the same addresses and the same written amounts. -/
theorem idChars_eq_iff {tx ux : Transaction} (htx : tx.HasPlainAddresses)
    (hux : ux.HasPlainAddresses) {m n : UInt64} :
    tx.idChars m = ux.idChars n ↔ m = n ∧ tx.ins.map TxIn.point = ux.ins.map TxIn.point ∧
      tx.outs.map TxOut.content = ux.outs.map TxOut.content := by
  constructor
  · intro h
    have hsplit := congrArg (List.splitOn '|') h
    rw [splitOn_idChars htx, splitOn_idChars hux] at hsplit
    obtain ⟨hindex, hparts⟩ := List.cons_eq_cons.mp hsplit
    have hins := congrArg (List.filter fun part => part.count ':' = 2) hparts
    have houts := congrArg (List.filter fun part => part.count ':' = 1) hparts
    rw [filter_two_idParts htx, filter_two_idParts hux] at hins
    rw [filter_one_idParts htx, filter_one_idParts hux] at houts
    refine ⟨Decimal.eq_of_wordChars hindex, ?_, map_content_of_chars htx hux houts⟩
    apply OutPoint.chars_injective.list_map
    rw [List.map_map, List.map_map]
    exact hins
  · rintro ⟨rfl, hins, houts⟩
    rw [idChars_eq_intercalate, idChars_eq_intercalate, idParts_eq_of_content hins houts]

/-- The text of an id goes on with a bar behind a part, or is over. -/
theorem ended_flatMap_bar {p : Char → Bool} (hbar : p '|' = true) (parts : List (List Char)) :
    Separator.Ended p (parts.flatMap ('|' :: ·)) := by
  cases parts with
  | nil => exact fun _ h => absurd h nofun
  | cons part parts => exact Separator.ended_cons hbar _

theorem idChars_eq_append (tx : Transaction) (block : UInt64) :
    tx.idChars block = Decimal.natChars block.toNat ++ tx.idParts.flatMap ('|' :: ·) := by
  rw [idChars_eq_intercalate, Separator.append_flatMap_eq_intercalate]

/-- The text of an id determines the index of the block and what is written behind it. -/
theorem eq_of_idChars {tx ux : Transaction} {m n : UInt64} (h : tx.idChars m = ux.idChars n) :
    m = n ∧ tx.idParts.flatMap ('|' :: ·) = ux.idParts.flatMap ('|' :: ·) := by
  rw [idChars_eq_append, idChars_eq_append] at h
  obtain ⟨hindex, hparts⟩ := Separator.eq_of_ended (fun _ => Decimal.isMark_of_mem_natChars)
    (fun _ => Decimal.isMark_of_mem_natChars) (ended_flatMap_bar rfl _) (ended_flatMap_bar rfl _) h
  exact ⟨Decimal.eq_of_wordChars hindex, hparts⟩

/-- The text of an id determines the point of the first input, if there is one. -/
theorem point_eq_of_idChars {tx ux : Transaction} {m n : UInt64} (h : tx.idChars m = ux.idChars n)
    {i j : TxIn} {is js : List TxIn} (hi : tx.ins = i :: is) (hj : ux.ins = j :: js) :
    i.point = j.point := by
  have hfree : ∀ x : OutPoint, ∀ c ∈ x.chars, (c == '|') = false := by
    intro x c hc
    rw [beq_eq_false_iff_ne]
    rintro rfl
    exact x.bar_not_mem_chars hc
  have hparts := (eq_of_idChars h).2
  simp only [idParts, hi, hj, List.map_cons, List.cons_append, List.flatMap_cons] at hparts
  exact OutPoint.chars_injective (Separator.eq_of_ended (hfree _) (hfree _)
    (ended_flatMap_bar rfl _) (ended_flatMap_bar rfl _) (List.cons_eq_cons.mp hparts).2).1

/-- No address in base 58 contains a character that separates the parts of the text of an id. And
for transactions with such addresses the text is the same exactly for the same index of the block,
the same points of the inputs in order, and outputs with the same addresses and the same written
amounts in order. -/
theorem idText_unambiguous :
    (∀ bytes, IsPlainAddress (Base58.encode bytes)) ∧
      ∀ (tx ux : Transaction) (m n : UInt64), tx.HasPlainAddresses → ux.HasPlainAddresses →
        (String.ofList (tx.idChars m) = String.ofList (ux.idChars n) ↔
          m = n ∧ tx.ins.map TxIn.point = ux.ins.map TxIn.point ∧
            tx.outs.map TxOut.content = ux.outs.map TxOut.content) := by
  refine ⟨Base58.isPlainAddress_encode, fun tx ux m n htx hux => ?_⟩
  rw [String.ofList_inj, idChars_eq_iff htx hux]

/-- A transaction with an amount that is no number and one that is below all others. -/
def odd (id signature : String) (address : Option String) : Transaction :=
  ⟨id, [⟨⟨1, 0, 0⟩, signature, address, none⟩], [⟨"shop", 0 / 0⟩, ⟨"", -(1 / 0)⟩]⟩

theorem hasPlainAddresses_odd (id signature : String) (address : Option String) :
    (odd id signature address).HasPlainAddresses := by
  intro o ho
  rcases List.mem_pair.mp ho with rfl | rfl <;> exact ⟨by decide, by decide⟩

theorem idText_unambiguous_odd :
    (odd "a" "s" none).HasPlainAddresses ∧ (odd "b" "t|:" (some "me")).HasPlainAddresses ∧
      String.ofList ((odd "a" "s" none).idChars 7) =
        String.ofList ((odd "b" "t|:" (some "me")).idChars 7) ∧
      String.ofList ((odd "a" "s" none).idChars 7) ≠
        String.ofList ((odd "b" "t|:" (some "me")).idChars 8) := by
  have ha := hasPlainAddresses_odd "a" "s" none
  have hb := hasPlainAddresses_odd "b" "t|:" (some "me")
  have hsame := fun m n => idText_unambiguous.2 _ _ m n ha hb
  exact ⟨ha, hb, (hsame 7 7).mpr ⟨rfl, rfl, rfl⟩, fun h => absurd ((hsame 7 8).mp h).1 (by decide)⟩

end Transaction

end WorkLedger
