import WorkLedger.Proofs.Transaction.Payload

/-!
# The payload of plain transactions

A transaction is plain when no id and no signature contains a bar or a closing
bracket, and no address contains a colon. Then nobody has to know the lengths of
its texts: the payload of plain transactions determines their content, because
an id and a signature go on to the next bar or bracket, an address to the next
colon, and an input has more colons than an output.
-/

namespace WorkLedger

theorem TxOut.content_eq_of_colon {o p : TxOut} {x y : List Char}
    (ho : ':' ∉ o.address.toList) (hp : ':' ∉ p.address.toList)
    (hx : Separator.Ended isEnd x) (hy : Separator.Ended isEnd y)
    (h : Transaction.Content.outChars o.content ++ x =
      Transaction.Content.outChars p.content ++ y) :
    o.content = p.content ∧ x = y := by
  simp only [Transaction.Content.outChars, content, Amount.text, String.toList_ofList,
    List.cons_append, List.append_assoc] at h
  obtain ⟨haddress, hrest⟩ := Separator.eq_of_first ho hp (List.cons_eq_cons.mp h).2
  exact content_eq_of_amount (hx.mono isMark_of_isEnd) (hy.mono isMark_of_isEnd)
    (String.toList_injective haddress) hrest

namespace Transaction

/-- The texts of a transaction do not contain the characters that end them. -/
structure IsPlain (tx : Transaction) : Prop where
  id : ∀ c ∈ tx.id.toList, isEnd c = false
  ins : ∀ i ∈ tx.ins, ∀ c ∈ i.signature.toList, isEnd c = false
  outs : ∀ o ∈ tx.outs, ':' ∉ o.address.toList

theorem outs_content_eq {os ps : List TxOut} (hos : ∀ o ∈ os, ':' ∉ o.address.toList)
    (hps : ∀ p ∈ ps, ':' ∉ p.address.toList) {x y : List Char}
    (h : os.flatMap (fun o => Content.outChars o.content) ++ ']' :: x =
      ps.flatMap (fun o => Content.outChars o.content) ++ ']' :: y) :
    os.map TxOut.content = ps.map TxOut.content ∧ x = y := by
  induction os generalizing ps with
  | nil =>
      cases ps with
      | nil => exact ⟨rfl, (List.cons_eq_cons.mp h).2⟩
      | cons p ps => cases (List.cons_eq_cons.mp h).1
  | cons o os ih =>
      cases ps with
      | nil => cases (List.cons_eq_cons.mp h).1
      | cons p ps =>
          rw [List.flatMap_cons, List.flatMap_cons, List.append_assoc,
            List.append_assoc] at h
          obtain ⟨hhead, htail⟩ := TxOut.content_eq_of_colon (hos o List.mem_cons_self)
            (hps p List.mem_cons_self) (ended_outs os x) (ended_outs ps y) h
          obtain ⟨hrest, hend⟩ := ih (fun z hz => hos z (List.mem_cons_of_mem o hz))
            (fun z hz => hps z (List.mem_cons_of_mem p hz)) htail
          exact ⟨by rw [List.map_cons, List.map_cons, hhead, hrest], hend⟩

/-- No input is written like outputs with plain addresses. -/
theorem inChars_ne_outs (i : TxIn) {ps : List TxOut}
    (hps : ∀ p ∈ ps, ':' ∉ p.address.toList) (x y : List Char) :
    Content.inChars i.content ++ x ≠
      ps.flatMap (fun o => Content.outChars o.content) ++ ']' :: y := by
  intro h
  cases ps with
  | nil => cases (List.cons_eq_cons.mp h).1
  | cons p ps =>
      have hended := ended_outs ps y
      rw [List.flatMap_cons, List.append_assoc] at h
      generalize ps.flatMap (fun o => Content.outChars o.content) ++ ']' :: y = rest
        at h hended
      simp only [Content.inChars, Content.outChars, TxIn.content, TxOut.content,
        OutPoint.chars, Amount.text, String.toList_ofList, List.cons_append,
        List.append_assoc] at h
      obtain ⟨_, hrest⟩ := Separator.eq_of_first (Decimal.colon_not_mem_natChars _)
        (hps p List.mem_cons_self) (List.cons_eq_cons.mp h).2
      obtain ⟨_, hcolon⟩ := Separator.eq_of_ended (fun _ => Decimal.isMark_of_mem_natChars)
        (fun _ => Amount.isMark_of_mem_chars) (Separator.ended_cons rfl _)
        (hended.mono isMark_of_isEnd) hrest
      have hend : isEnd ':' = true := hended ':' (by rw [← hcolon]; rfl)
      cases hend

theorem ended_ins (is : List TxIn) {x : List Char} (hx : Separator.Ended isEnd x) :
    Separator.Ended isEnd (is.flatMap (fun i => Content.inChars i.content) ++ x) := by
  cases is with
  | nil => exact hx
  | cons i is =>
      rw [List.flatMap_cons, Content.inChars, List.cons_append, List.cons_append]
      exact Separator.ended_cons rfl _

theorem ins_content_eq {is js : List TxIn}
    (his : ∀ i ∈ is, ∀ c ∈ i.signature.toList, isEnd c = false)
    (hjs : ∀ j ∈ js, ∀ c ∈ j.signature.toList, isEnd c = false) {os ps : List TxOut}
    (hos : ∀ o ∈ os, ':' ∉ o.address.toList) (hps : ∀ p ∈ ps, ':' ∉ p.address.toList)
    {x y : List Char}
    (h : is.flatMap (fun i => Content.inChars i.content) ++
        (os.flatMap (fun o => Content.outChars o.content) ++ ']' :: x) =
      js.flatMap (fun i => Content.inChars i.content) ++
        (ps.flatMap (fun o => Content.outChars o.content) ++ ']' :: y)) :
    is.map TxIn.content = js.map TxIn.content ∧
      os.flatMap (fun o => Content.outChars o.content) ++ ']' :: x =
        ps.flatMap (fun o => Content.outChars o.content) ++ ']' :: y := by
  induction is generalizing js with
  | nil =>
      cases js with
      | nil => exact ⟨rfl, h⟩
      | cons j js =>
          rw [List.flatMap_cons, List.append_assoc] at h
          exact absurd h.symm (inChars_ne_outs j hos _ x)
  | cons i is ih =>
      cases js with
      | nil =>
          rw [List.flatMap_cons, List.append_assoc] at h
          exact absurd h (inChars_ne_outs i hps _ y)
      | cons j js =>
          have hxended := ended_ins is (ended_outs os x)
          have hyended := ended_ins js (ended_outs ps y)
          rw [List.flatMap_cons, List.flatMap_cons, List.append_assoc, List.append_assoc,
            Content.inChars, Content.inChars, List.cons_append, List.cons_append,
            List.append_assoc, List.append_assoc] at h
          obtain ⟨hpoint, hrest⟩ := OutPoint.eq_of_chars (List.cons_eq_cons.mp h).2
          obtain ⟨hsignature, htail⟩ := Separator.eq_of_ended (his i List.mem_cons_self)
            (hjs j List.mem_cons_self) hxended hyended hrest
          obtain ⟨hrest, hend⟩ := ih (fun z hz => his z (List.mem_cons_of_mem i hz))
            (fun z hz => hjs z (List.mem_cons_of_mem j hz)) htail
          have hhead : i.content = j.content :=
            Prod.ext hpoint (String.toList_injective hsignature)
          exact ⟨by rw [List.map_cons, List.map_cons, hhead, hrest], hend⟩

/-- The payload of a plain transaction, whatever follows it, determines its
content. -/
theorem IsPlain.content_eq {t u : Transaction} (ht : t.IsPlain) (hu : u.IsPlain)
    {x y : List Char} (h : t.payloadChars ++ x = u.payloadChars ++ y) :
    t.content = u.content ∧ x = y := by
  simp only [← chars_content, Content.chars, content, List.flatMap_map, List.cons_append,
    List.append_assoc, List.nil_append] at h
  obtain ⟨hid, hrest⟩ := Separator.eq_of_ended ht.id hu.id
    (ended_ins t.ins (ended_outs t.outs x)) (ended_ins u.ins (ended_outs u.outs y))
    (List.cons_eq_cons.mp h).2
  obtain ⟨hins, hrest⟩ := ins_content_eq ht.ins hu.ins ht.outs hu.outs hrest
  obtain ⟨houts, hend⟩ := outs_content_eq ht.outs hu.outs hrest
  exact ⟨by rw [content, content, String.toList_injective hid, hins, houts], hend⟩

/-- Two lists of plain transactions with the same payload have the same content. -/
theorem map_content_eq_of_isPlain {xs ys : List Transaction} (hxs : ∀ t ∈ xs, t.IsPlain)
    (hys : ∀ t ∈ ys, t.IsPlain) (h : Block.payloadsText xs = Block.payloadsText ys) :
    xs.map content = ys.map content := by
  have hchars : xs.flatMap payloadChars = ys.flatMap payloadChars := String.ofList_inj.mp h
  clear h
  induction xs generalizing ys with
  | nil =>
      cases ys with
      | nil => rfl
      | cons u ys => cases hchars
  | cons t xs ih =>
      cases ys with
      | nil => cases hchars
      | cons u ys =>
          rw [List.flatMap_cons, List.flatMap_cons] at hchars
          obtain ⟨hhead, htail⟩ := (hxs t List.mem_cons_self).content_eq
            (hys u List.mem_cons_self) hchars
          have hrest := ih (fun z hz => hxs z (List.mem_cons_of_mem t hz))
            (fun z hz => hys z (List.mem_cons_of_mem u hz)) htail
          rw [List.map_cons, List.map_cons, hhead, hrest]

end Transaction

end WorkLedger
