import WorkLedger.Block.Basic
import WorkLedger.Proofs.Decimal.Written
import WorkLedger.Proofs.Text.Separator

/-!
# What the payload of transactions determines

The payload is meant to fix the content of each transaction: its id, its inputs
with their signatures, and its outputs with their amounts as they are written. It
contains all of that, but neither the lengths of the free texts in it nor a mark
that a free text could not contain. So it determines the content exactly up to
these lengths (`map_content_eq_iff`): two lists of transactions with the same
payload differ in content if and only if they differ in the number of inputs or
outputs, or in the length of an id, a signature or an address. Such lists exist
(`not_payloadsText_injective`).
-/

namespace WorkLedger

namespace Transaction

/-- The content of a transaction, which its block is to commit to. The owners and
the amounts that inputs resolve to are no part of it. -/
structure Content where
  id : String
  ins : List (OutPoint × String)
  outs : List (String × String)
  deriving DecidableEq

namespace Content

/-- What the payload holds of an input: a bar, the output it points at, and its signature. -/
def inChars (i : OutPoint × String) : List Char := '|' :: (i.1.chars ++ ':' :: i.2.toList)

/-- What the payload holds of an output: a bar, the address, and the amount as it is written. -/
def outChars (o : String × String) : List Char := '|' :: (o.1.toList ++ ':' :: o.2.toList)

/-- The payload that a content is written as: the id, the inputs and the outputs in brackets. -/
def chars (c : Content) : List Char :=
  '[' :: (c.id.toList ++ (c.ins.flatMap inChars ++ (c.outs.flatMap outChars ++ [']'])))

/-- The lengths of the free texts: the id, the signatures and the addresses. -/
def lengths (c : Content) : ℕ × List ℕ × List ℕ :=
  (c.id.length, c.ins.map fun i => i.2.length, c.outs.map fun o => o.1.length)

end Content

end Transaction

/-- An input as far as the payload is meant to fix it: the output it points at, and its
signature. -/
def TxIn.content (i : TxIn) : OutPoint × String := (i.point, i.signature)

/-- An output as far as the payload is meant to fix it: the address, and the amount as it is
written. -/
def TxOut.content (o : TxOut) : String × String := (o.address, Amount.text o.amount)

namespace Transaction

/-- The content of a transaction as it stands in its fields. -/
def content (tx : Transaction) : Content :=
  ⟨tx.id, tx.ins.map TxIn.content, tx.outs.map TxOut.content⟩

/-- The payload of a transaction is written from its content alone. -/
theorem chars_content (tx : Transaction) : tx.content.chars = tx.payloadChars := by
  simp [Content.chars, Content.inChars, Content.outChars, content, payloadChars,
    TxIn.content, TxOut.content, TxOut.chars, Amount.text, List.flatMap_map]

theorem payloadsText_eq (txs : List Transaction) :
    Block.payloadsText txs = String.ofList ((txs.map content).flatMap Content.chars) := by
  rw [List.flatMap_map, Block.payloadsText]
  simp only [chars_content]

end Transaction

theorem OutPoint.eq_of_chars {p q : OutPoint} {x y : List Char}
    (h : p.chars ++ ':' :: x = q.chars ++ ':' :: y) : p = q ∧ x = y := by
  have hcolon : ∀ n, ':' ∉ Decimal.natChars n := Decimal.colon_not_mem_natChars
  simp only [chars, List.append_assoc, List.cons_append] at h
  obtain ⟨hblock, hrest⟩ := Separator.eq_of_first (hcolon _) (hcolon _) h
  obtain ⟨htx, hrest⟩ := Separator.eq_of_first (hcolon _) (hcolon _) hrest
  obtain ⟨hout, hend⟩ := Separator.eq_of_first (hcolon _) (hcolon _) hrest
  refine ⟨?_, hend⟩
  cases p
  cases q
  rw [OutPoint.mk.injEq]
  exact ⟨Decimal.eq_of_wordChars hblock, Decimal.eq_of_wordChars htx,
    Decimal.eq_of_wordChars hout⟩

theorem eq_of_toList {s t : String} {x y : List Char} (hlength : s.length = t.length)
    (h : s.toList ++ x = t.toList ++ y) : s = t ∧ x = y := by
  obtain ⟨htext, hrest⟩ :=
    List.append_inj h (by rwa [String.length_toList, String.length_toList])
  exact ⟨String.toList_injective htext, hrest⟩

theorem TxIn.content_eq_of_chars {i j : TxIn} {x y : List Char}
    (hlength : i.signature.length = j.signature.length)
    (h : Transaction.Content.inChars i.content ++ x =
      Transaction.Content.inChars j.content ++ y) :
    i.content = j.content ∧ x = y := by
  simp only [Transaction.Content.inChars, List.cons_append, List.append_assoc] at h
  obtain ⟨hpoint, hrest⟩ := OutPoint.eq_of_chars (List.cons_eq_cons.mp h).2
  obtain ⟨hsignature, hend⟩ := eq_of_toList hlength hrest
  exact ⟨Prod.ext hpoint hsignature, hend⟩

theorem TxOut.content_eq_of_amount {o p : TxOut} {x y : List Char}
    (hx : Separator.Ended Decimal.isMark x) (hy : Separator.Ended Decimal.isMark y)
    (haddress : o.address = p.address)
    (h : Amount.chars o.amount ++ x = Amount.chars p.amount ++ y) :
    o.content = p.content ∧ x = y := by
  obtain ⟨hamount, hend⟩ := Separator.eq_of_ended
    (fun _ => Amount.isMark_of_mem_chars) (fun _ => Amount.isMark_of_mem_chars) hx hy h
  exact ⟨by rw [content, content, Amount.text, Amount.text, haddress, hamount], hend⟩

theorem TxOut.content_eq_of_chars {o p : TxOut} {x y : List Char}
    (hx : Separator.Ended Decimal.isMark x) (hy : Separator.Ended Decimal.isMark y)
    (hlength : o.address.length = p.address.length)
    (h : Transaction.Content.outChars o.content ++ x =
      Transaction.Content.outChars p.content ++ y) :
    o.content = p.content ∧ x = y := by
  simp only [Transaction.Content.outChars, content, Amount.text, String.toList_ofList,
    List.cons_append, List.append_assoc] at h
  obtain ⟨haddress, hrest⟩ := eq_of_toList hlength (List.cons_eq_cons.mp h).2
  exact content_eq_of_amount hx hy haddress (List.cons_eq_cons.mp hrest).2

/-- Whether a character ends a field of the payload. -/
def isEnd (c : Char) : Bool := c == '|' || c == ']'

theorem isMark_of_isEnd (c : Char) (h : isEnd c = true) : Decimal.isMark c = true := by
  simp only [isEnd, Bool.or_eq_true, beq_iff_eq] at h
  rcases h with rfl | rfl <;> rfl

theorem ended_outs (outs : List TxOut) (x : List Char) : Separator.Ended isEnd
    (outs.flatMap (fun o => Transaction.Content.outChars o.content) ++ ']' :: x) := by
  cases outs with
  | nil => exact Separator.ended_cons rfl x
  | cons o outs =>
      rw [List.flatMap_cons, Transaction.Content.outChars, List.cons_append,
        List.cons_append]
      exact Separator.ended_cons rfl _

namespace Transaction

/-- The payload of a transaction, whatever follows it, determines its content
once the lengths of its texts are known. -/
theorem content_eq_of_payloadChars {t u : Transaction} {x y : List Char}
    (hlengths : t.content.lengths = u.content.lengths)
    (h : t.payloadChars ++ x = u.payloadChars ++ y) : t.content = u.content ∧ x = y := by
  simp only [Content.lengths, content, List.map_map, Prod.mk.injEq] at hlengths
  obtain ⟨hid, hins, houts⟩ := hlengths
  simp only [← chars_content, Content.chars, content, List.flatMap_map, List.cons_append,
    List.append_assoc, List.nil_append] at h
  obtain ⟨hid, h⟩ := eq_of_toList hid (List.cons_eq_cons.mp h).2
  obtain ⟨hins, h⟩ := Separator.map_eq_of_flatMap
    (fun i z => Separator.ended_cons rfl _) (fun _ _ => TxIn.content_eq_of_chars)
    (ended_outs t.outs x) (ended_outs u.outs y) hins h
  obtain ⟨houts, h⟩ := Separator.map_eq_of_flatMap
    (fun o z => Separator.ended_cons rfl _) TxOut.content_eq_of_chars
    (Separator.ended_cons rfl x) (Separator.ended_cons rfl y) houts h
  exact ⟨by rw [content, content, hid, hins, houts], (List.cons_eq_cons.mp h).2⟩

/-- Two lists of transactions have the same content exactly if they have the same
payload and the free texts in them have the same lengths. -/
theorem map_content_eq_iff (xs ys : List Transaction) :
    xs.map content = ys.map content ↔
      Block.payloadsText xs = Block.payloadsText ys ∧
        (xs.map content).map Content.lengths = (ys.map content).map Content.lengths := by
  constructor
  · intro h
    rw [payloadsText_eq, payloadsText_eq, h]
    exact ⟨rfl, rfl⟩
  · rintro ⟨hpayload, hlengths⟩
    have hchars : xs.flatMap payloadChars ++ [] = ys.flatMap payloadChars ++ [] := by
      rw [List.append_nil, List.append_nil]
      exact String.ofList_inj.mp hpayload
    rw [List.map_map, List.map_map] at hlengths
    have hended : Separator.Ended (fun _ => true) ([] : List Char) := fun _ _ => rfl
    exact (Separator.map_eq_of_flatMap (fun _ _ _ _ => rfl)
      (fun _ _ => content_eq_of_payloadChars) hended hended hlengths hchars).1

/-- A transaction with one signed input and no output. -/
def spending : Transaction := ⟨"a", [.unresolved ⟨1, 2, 3⟩ "5"], []⟩

/-- The same payload, read as an output of five to an address with colons. -/
def paying : Transaction := ⟨"a", [], [⟨"1:2:3", 5⟩]⟩

/-- An input and an output can have the same payload, so content may differ
although the payload does not. -/
theorem not_payloadsText_injective :
    ¬ ∀ xs ys : List Transaction, Block.payloadsText xs = Block.payloadsText ys →
      xs.map content = ys.map content := by
  intro hall
  have hpayload : Block.payloadsText [spending] = Block.payloadsText [paying] := by
    decide +kernel
  have hcontent := hall [spending] [paying] hpayload
  simp [content, spending, paying] at hcontent

end Transaction

end WorkLedger
