import WorkLedger.Proofs.Block.Encoding
import WorkLedger.Sync.Frame

/-!
# Frames read back

All frames have one shape, and what they hold says what they are. A request or a response
goes into an envelope and is found in it again, the envelope is read back from its text,
and whatever text a frame is found in, it is one of the frames that are found again.
-/

namespace WorkLedger

namespace Decoder

theorem reads_plain_nat (depth : ℕ) (w : UInt64) :
    (plain depth).Reads (.nat w.toNat) (.nat w.toNat) := by
  have hplain : (Json.nat w.toNat).isPlain depth = true := by
    rw [Json.nat, Json.isPlain]
    exact Numeral.isFinite_toFloat_ofNat w.toNat_lt
  exact ⟨Json.isProper_nat _, if_pos hplain⟩

theorem exists_of_read {α : Type} {d : Decoder α} {text : String} {a : α}
    (h : d.read text = .ok a) : ∃ j, d j = .ok a := by
  refine ⟨(Json.ofText text).root, ?_⟩
  rw [read, whole] at h
  split at h
  next b hb =>
    split at h
    · rw [hb, h]
    · cases h
  next => cases h

end Decoder

theorem Json.word64?_nat (w : UInt64) : (nat w.toNat).word64? = some w := by
  rw [word64?, (Decoder.reads_word64 w).eq_ok]
  rfl

namespace Envelope

/-- The amounts of the blocks in an envelope. -/
def amounts (e : Envelope) : List Float := (e.blocks.getD []).flatMap Block.amounts

/-- The ends of a range are words. -/
def HasWords (e : Envelope) : Prop :=
  (∀ j ∈ e.id1, ∃ w : UInt64, j = .nat w.toNat) ∧ ∀ j ∈ e.id2, ∃ w : UInt64, j = .nat w.toNat

theorem reads_decoder (e : Envelope) (hwords : e.HasWords)
    (h : ∀ x ∈ e.amounts, x.isFinite = true ∧ Amount.ReadsBack x) :
    Envelope.decoder.Reads e.toJson e := by
  have hplain : ∀ o : Option Json, (∀ j ∈ o, ∃ w : UInt64, j = .nat w.toNat) →
      ∀ j ∈ o, id j ≠ .null ∧ (Decoder.plain 126).Reads (id j) j := by
    intro o ho j hj
    obtain ⟨w, rfl⟩ := ho j hj
    exact ⟨Json.nat_ne_null _, Decoder.reads_plain_nat 126 w⟩
  have hblocks : ∀ bs ∈ e.blocks, Json.array (bs.map Block.toJson) ≠ .null ∧
      (Decoder.list Block.decoder).Reads (.array (bs.map Block.toJson)) bs := by
    intro bs hbs
    refine ⟨nofun, Decoder.reads_list fun b hb => b.reads_decoder fun x hx => h x ?_⟩
    rw [amounts, hbs]
    exact List.mem_flatMap.mpr ⟨b, hb, hx⟩
  have hread := Record.reads_ofConstructor Envelope.mk
    |>.optional "message" (by decide) e.message Json.string (fun s _ =>
      ⟨nofun, Decoder.reads_text s⟩)
    |>.optional "blocks" (by decide) e.blocks (fun bs => .array (bs.map Block.toJson)) hblocks
    |>.optional "cumdiff" (by decide) e.weight (fun w => .nat w.toNat) (fun w _ =>
      ⟨Json.nat_ne_null _, Decoder.reads_word64 w⟩)
    |>.optional "error" (by decide) e.error Json.string (fun s _ => ⟨nofun, Decoder.reads_text s⟩)
    |>.optional "id1" (by decide) e.id1 id (hplain e.id1 hwords.1)
    |>.optional "id2" (by decide) e.id2 id (hplain e.id2 hwords.2)
    |>.decoder
  -- the ends are written as they are
  rw [Option.map_id] at hread
  exact hread

theorem isFinite_of_decoder {j : Json} {e : Envelope} (h : Envelope.decoder j = .ok e) :
    ∀ x ∈ e.amounts, x.isFinite = true := by
  refine Record.Ensures.decoder (Q := fun e => ∀ x ∈ e.amounts, x.isFinite = true) ?_ h
  refine .any (.any (.any (.any (.field (P := fun o => ∀ bs ∈ o, ∀ b ∈ bs,
    ∀ x ∈ Block.amounts b, x.isFinite = true) (.any (Record.ensures_ofConstructor ?_)) ?_ ?_))))
  · rintro _ o ho _ _ _ _ x hx
    cases o with
    | none => cases hx
    | some bs =>
        obtain ⟨b, hb, hamount⟩ := List.mem_flatMap.mp hx
        exact ho bs rfl b hb x hamount
  · exact fun _ _ => Decoder.of_nullable fun _ _ =>
      Decoder.of_list fun _ _ => Block.isFinite_of_decoder
  · intro o ho bs hbs
    cases ho
    cases hbs

end Envelope

namespace Frame

/-- What an envelope is sorted as. -/
def ofEnvelope (e : Envelope) : Frame :=
  if e.isResponse then .response (Response.ofEnvelope e) else .request (Request.ofEnvelope e)

theorem classify_of_reads {j : Json} {e : Envelope} (h : Envelope.decoder.Reads j e) :
    classify j.compact = ofEnvelope e := by
  rw [classify, h.read_compact]
  rfl

/-- What is found in a text is what its envelope is sorted as. -/
theorem exists_of_classify {text : String} {f : Frame} (h : classify text = f)
    (hf : f ≠ .unparseable) : ∃ j e, Envelope.decoder j = .ok e ∧ ofEnvelope e = f := by
  cases hread : Envelope.decoder.read text with
  | error fault =>
      rw [classify, hread] at h
      exact absurd h.symm hf
  | ok e =>
      obtain ⟨j, hj⟩ := Decoder.exists_of_read hread
      rw [classify, hread] at h
      exact ⟨j, e, hj, h⟩

end Frame

namespace Request

/-- A request of an unknown kind does not have the kind of another request. -/
def HasOwnKind (r : Request) : Prop :=
  r ≠ .unknown Envelope.summaryKind ∧ r ≠ .unknown Envelope.chainKind

theorem hasWords_toEnvelope (r : Request) : r.toEnvelope.HasWords := by
  cases r with
  | summary => exact ⟨nofun, nofun⟩
  | chain range =>
      cases range with
      | none => exact ⟨nofun, nofun⟩
      | some range =>
          exact ⟨fun j hj => ⟨range.first, (Option.some.inj hj).symm⟩,
            fun j hj => ⟨range.last, (Option.some.inj hj).symm⟩⟩
  | unknown kind => exact ⟨nofun, nofun⟩

theorem amounts_toEnvelope (r : Request) : r.toEnvelope.amounts = [] := by
  cases r <;> rfl

theorem ofEnvelope_toEnvelope {r : Request} (h : r.HasOwnKind) :
    ofEnvelope r.toEnvelope = .ok r := by
  cases r with
  | summary => rfl
  | chain range =>
      cases range with
      | none => rfl
      | some range =>
          have hkind : Envelope.chainKind ≠ Envelope.summaryKind := by decide
          simp only [toEnvelope, ofEnvelope, if_neg hkind, if_pos, Option.map_some,
            Option.bind_some, Json.word64?_nat]
  | unknown kind =>
      have hsummary : kind ≠ Envelope.summaryKind := fun heq => h.1 (heq ▸ rfl)
      have hchain : kind ≠ Envelope.chainKind := fun heq => h.2 (heq ▸ rfl)
      exact (if_neg hsummary).trans (if_neg hchain)

theorem hasOwnKind_of_ofEnvelope {e : Envelope} {r : Request} (h : ofEnvelope e = .ok r) :
    r.HasOwnKind := by
  rw [ofEnvelope] at h
  split at h
  · cases h
  next kind _ =>
    split_ifs at h with hsummary hchain
    · cases h
      exact ⟨nofun, nofun⟩
    · split at h
      · cases h
        exact ⟨nofun, nofun⟩
      · split at h
        · cases h
        · split at h
          · cases h
          · cases h
            exact ⟨nofun, nofun⟩
    · cases h
      exact ⟨fun heq => hsummary (unknown.inj heq), fun heq => hchain (unknown.inj heq)⟩

/-- A request that was found in a text has a kind of its own. -/
theorem hasOwnKind_of_classify {text : String} {r : Request}
    (h : Frame.classify text = .request (.ok r)) : r.HasOwnKind := by
  obtain ⟨j, e, -, he⟩ := Frame.exists_of_classify h nofun
  rw [Frame.ofEnvelope] at he
  split at he
  · cases he
  · exact hasOwnKind_of_ofEnvelope (Frame.request.inj he)

/-- A request is found again in its text. -/
theorem classify_text {r : Request} (h : r.HasOwnKind) :
    Frame.classify r.text = .request (.ok r) := by
  have hread : Envelope.decoder.Reads r.toEnvelope.toJson r.toEnvelope := by
    refine r.toEnvelope.reads_decoder r.hasWords_toEnvelope fun x hx => ?_
    rw [r.amounts_toEnvelope] at hx
    cases hx
  have hrequest : r.toEnvelope.isResponse = false := by cases r <;> rfl
  rw [text, Frame.classify_of_reads hread, Frame.ofEnvelope, hrequest, ofEnvelope_toEnvelope h]
  rfl

end Request

namespace Response

/-- The blocks of a response. -/
def blocks : Response → List Block
  | summary first tail _ => [first, tail]
  | chain blocks => blocks
  | error _ _ | unknown _ => []

/-- The amounts of the blocks of a response. -/
def amounts (s : Response) : List Float := s.blocks.flatMap Block.amounts

theorem amounts_toEnvelope (s : Response) : s.toEnvelope.amounts = s.amounts := by
  cases s <;> rfl

/-- A response that is not of an unknown kind. -/
def IsKnown (s : Response) : Prop := ∀ kind, s ≠ .unknown kind

theorem hasWords_toEnvelope (s : Response) : s.toEnvelope.HasWords := by
  cases s <;> exact ⟨nofun, nofun⟩

theorem ofEnvelope_toEnvelope {s : Response} (h : s.IsKnown) : ofEnvelope s.toEnvelope = .ok s := by
  cases s with
  | summary first tail weight => rfl
  | chain blocks => rfl
  | error message text => rfl
  | unknown kind => exact absurd rfl (h kind)

theorem isResponse_toEnvelope {s : Response} (h : s.IsKnown) : s.toEnvelope.isResponse = true := by
  cases s with
  | summary first tail weight => rfl
  | chain blocks => rfl
  | error message text => rfl
  | unknown kind => exact absurd rfl (h kind)

/-- A response has no other blocks than its envelope. -/
theorem amounts_of_ofEnvelope {e : Envelope} {s : Response} (h : ofEnvelope e = .ok s) :
    s.amounts ⊆ e.amounts := by
  rw [ofEnvelope] at h
  split at h
  · cases h
    exact List.nil_subset _
  · split at h
    · cases h
    · split_ifs at h with hsummary hchain
      · split at h
        next first tail weight hblocks _ =>
          cases h
          rw [Envelope.amounts, hblocks]
          exact List.Subset.refl _
        next => cases h
      · cases h
        exact List.Subset.refl _
      · cases h
        exact List.nil_subset _

/-- The amounts of a response that was found in a text are finite. -/
theorem isFinite_of_classify {text : String} {s : Response}
    (h : Frame.classify text = .response (.ok s)) : ∀ x ∈ s.amounts, x.isFinite = true := by
  obtain ⟨j, e, hj, he⟩ := Frame.exists_of_classify h nofun
  rw [Frame.ofEnvelope] at he
  split at he
  · exact fun x hx => Envelope.isFinite_of_decoder hj x
      (amounts_of_ofEnvelope (Frame.response.inj he) hx)
  · cases he

/-- A response that is known is found again in its text. -/
theorem classify_text {s : Response} (h : s.IsKnown)
    (hamounts : ∀ x ∈ s.amounts, x.isFinite = true ∧ Amount.ReadsBack x) :
    Frame.classify s.text = .response (.ok s) := by
  rw [← amounts_toEnvelope] at hamounts
  have hread := s.toEnvelope.reads_decoder s.hasWords_toEnvelope hamounts
  rw [text, Frame.classify_of_reads hread, Frame.ofEnvelope, isResponse_toEnvelope h,
    ofEnvelope_toEnvelope h]
  rfl

end Response

namespace Frame

/-- Every request and every known response is found again in its text, if the amounts of
its blocks are finite and each is read back from its numeral; not all amounts are
(`Amount.not_readsBack`). So whatever text a frame is found in, it is found again in the
text that it is written as. -/
theorem classify_written :
    (∀ r : Request, r.HasOwnKind → classify r.text = .request (.ok r)) ∧
      (∀ s : Response, s.IsKnown → (∀ x ∈ s.amounts, x.isFinite = true ∧ Amount.ReadsBack x) →
        classify s.text = .response (.ok s)) ∧
      (∀ t r, classify t = .request (.ok r) → classify r.text = classify t) ∧
      ∀ t s, classify t = .response (.ok s) → s.IsKnown → (∀ x ∈ s.amounts, Amount.ReadsBack x) →
        classify s.text = classify t := by
  refine ⟨fun r => Request.classify_text, fun s => Response.classify_text, ?_, ?_⟩
  · intro t r ht
    rw [ht]
    exact Request.classify_text (Request.hasOwnKind_of_classify ht)
  · intro t s ht hknown hback
    rw [ht]
    exact Response.classify_text hknown fun x hx =>
      ⟨Response.isFinite_of_classify ht x hx, hback x hx⟩

/-- A range of blocks. -/
def sampleRange : BlockRange := ⟨3, 0xffffffffffffffff⟩

/-- A block with a resolved input, and with characters that are escaped. -/
def sampleBlock : Block :=
  ⟨0, "0", "\"\\\n", 1, 8, 0xffffffffffffffff, "ü\u0001",
    [⟨"id", [⟨⟨0, 0, 0⟩, "", some "owner", some Transaction.reward⟩],
      [⟨"owner", Transaction.reward⟩]⟩]⟩

theorem isFinite_of_sampleBlock {x : Float} (hx : x ∈ (Response.chain [sampleBlock]).amounts) :
    x.isFinite = true ∧ Amount.ReadsBack x := by
  change x ∈ [Transaction.reward, Transaction.reward] at hx
  obtain rfl : x = Transaction.reward := by simpa using hx
  exact ⟨by decide +kernel, Amount.readsBack_reward⟩

theorem classify_written_sample :
    classify (Request.chain (some sampleRange)).text = .request (.ok (.chain (some sampleRange))) ∧
      classify (Response.chain [sampleBlock]).text = .response (.ok (.chain [sampleBlock])) ∧
      classify Request.summary.text = classify (Json.array [.string "summary"]).compact ∧
      classify (Response.chain []).text =
        classify (Json.array [.string "chain", .array []]).compact := by
  have hrequest : classify (Json.array [.string "summary"]).compact = .request (.ok .summary) :=
    classify_of_reads (j := .array [.string "summary"]) ⟨⟨trivial, trivial⟩, rfl⟩
  have hresponse : classify (Json.array [.string "chain", .array []]).compact =
      .response (.ok (.chain [])) :=
    classify_of_reads (j := .array [.string "chain", .array []])
      ⟨⟨trivial, trivial, trivial⟩, rfl⟩
  exact ⟨classify_written.1 _ ⟨nofun, nofun⟩,
    classify_written.2.1 _ nofun fun _ => isFinite_of_sampleBlock,
    classify_written.2.2.1 _ _ hrequest, classify_written.2.2.2 _ _ hresponse nofun nofun⟩

end Frame

end WorkLedger
