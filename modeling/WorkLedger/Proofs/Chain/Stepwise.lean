import WorkLedger.Proofs.Chain.Replacement
import WorkLedger.Proofs.Fallible

/-!
# Replacements block by block

A replacement is compared with appending its blocks one after another by `Chain.append`. A
whole chain is swapped in exactly if the chain without blocks takes all of its blocks. A splice
takes what the blocks below its start take, up to the first refusal, and is refused only if that
is the refusal of its first block. Either way a refusal leaves the chain as it was.
-/

namespace WorkLedger

namespace Chain

theorem append_eq_ok_iff {c d : Chain} {b : Block} :
    c.append b = .ok d ↔
      (b.isGenuine = true ∧ ∀ tail, c.tail? = some tail → b.follows tail = true) ∧
        d = { c with blocks := c.blocks ++ [b] } := by
  constructor
  · intro h
    obtain ⟨hrefusal, hd⟩ := append_eq_ok h
    exact ⟨(refusal?_eq_none_iff c b).mp hrefusal, hd⟩
  · rintro ⟨htaken, rfl⟩
    exact append_of_refusal?_eq_none ((refusal?_eq_none_iff c b).mpr htaken)

theorem foldlM_append_cons {c d : Chain} {b : Block} {rest : List Block}
    (h : c.append b = .ok d) : (b :: rest).foldlM append c = rest.foldlM append d := by
  rw [List.foldlM_cons, h]
  rfl

/-- What a list of blocks comes to that are appended one by one: those up to the first refusal
are taken, and the next one is refused by the chain that they make. -/
theorem extend_stepwise (c : Chain) (bs : List Block) :
    (bs.take (c.extend bs).taken).foldlM append c = .ok (c.extend bs).chain ∧
      ∀ b, bs[(c.extend bs).taken]? = some b → ∃ e, (c.extend bs).refusal = some e ∧
        (c.extend bs).chain.append b = .error e := by
  induction bs generalizing c with
  | nil => exact ⟨rfl, nofun⟩
  | cons b rest ih =>
      cases hb : c.append b with
      | error e =>
          rw [extend_cons_of_error hb]
          refine ⟨rfl, fun x hx => ?_⟩
          obtain rfl := Option.some.inj hx
          exact ⟨e, rfl, hb⟩
      | ok d =>
          obtain ⟨htaken, hrefused⟩ := ih d
          rw [extend_cons_of_ok hb]
          refine ⟨?_, hrefused⟩
          rw [List.take_succ_cons, foldlM_append_cons hb]
          exact htaken

/-- The blocks that a chain takes one by one are genuine and continue it. -/
theorem exists_foldlM_append_iff {c : Chain} {bs : List Block} :
    (∃ d, bs.foldlM append c = .ok d) ↔
      (∀ b ∈ bs, b.isGenuine = true) ∧
        (c.tail?.toList ++ bs).IsChain fun previous b => b.follows previous = true := by
  induction bs generalizing c with
  | nil =>
      have hshort : c.tail?.toList.IsChain fun previous b => b.follows previous = true := by
        cases c.tail? with
        | none => exact .nil
        | some tail => exact .singleton tail
      simpa [pure, Except.pure] using hshort
  | cons b rest ih =>
      have htail : (Chain.mk (c.blocks ++ [b]) c.pending).tail? = some b := by simp [tail?]
      have hlink : ((c.tail?.toList ++ b :: rest).IsChain
            fun previous b => b.follows previous = true) ↔
          (∀ tail, c.tail? = some tail → b.follows tail = true) ∧
            (b :: rest).IsChain fun previous b => b.follows previous = true := by
        cases c.tail? with
        | none => simp
        | some tail => simp [List.isChain_cons_cons]
      cases hb : c.append b with
      | error e =>
          have hrefused : ¬ (b.isGenuine = true ∧
              ∀ tail, c.tail? = some tail → b.follows tail = true) := by
            intro htaken
            rw [append_eq_ok_iff.mpr ⟨htaken, rfl⟩] at hb
            cases hb
          have herror : (b :: rest).foldlM append c = .error e := by
            rw [List.foldlM_cons, hb]
            rfl
          constructor
          · rintro ⟨d, hd⟩
            rw [herror] at hd
            cases hd
          · rintro ⟨hgenuine, hchain⟩
            exact absurd ⟨hgenuine b List.mem_cons_self, (hlink.mp hchain).1⟩ hrefused
      | ok d =>
          obtain ⟨⟨hgenuine, hfollows⟩, rfl⟩ := append_eq_ok_iff.mp hb
          rw [foldlM_append_cons hb, ih, htail, hlink, List.forall_mem_cons]
          exact ⟨fun h => ⟨⟨hgenuine, h.1⟩, hfollows, h.2⟩, fun h => ⟨h.1.2, h.2.2⟩⟩

/-- The indices of a chain count up by one, from any index on. -/
def IsCounting (c : Chain) : Prop :=
  c.blocks.IsChain fun previous b => b.index.toNat = previous.index.toNat + 1

/-- Where indices go up, the blocks below an index are those before the first one that is not. -/
theorem takeWhile_index_eq_filter {bs : List Block}
    (h : bs.Pairwise fun x y => x.index < y.index) (start : UInt64) :
    (bs.takeWhile fun b => b.index < start) = bs.filter fun b => b.index < start := by
  induction bs with
  | nil => rfl
  | cons b rest ih =>
      obtain ⟨hlater, hrest⟩ := List.pairwise_cons.mp h
      by_cases hb : b.index < start
      · rw [List.takeWhile_cons_of_pos (by simpa using hb),
          List.filter_cons_of_pos (by simpa using hb), ih hrest]
      · rw [List.takeWhile_cons_of_neg (by simpa using hb),
          List.filter_cons_of_neg (by simpa using hb), eq_comm, List.filter_eq_nil_iff]
        intro x hx hlt
        exact hb (UInt64.lt_trans (hlater x hx) (of_decide_eq_true hlt))

theorem IsCounting.pairwise_index {c : Chain} (h : c.IsCounting) :
    c.blocks.Pairwise fun x y => x.index < y.index :=
  List.isChain_iff_pairwise.mp (h.imp fun x y hxy => UInt64.lt_iff_toNat_lt.mpr (by omega))

theorem IsCounting.kept_eq {c : Chain} (h : c.IsCounting) (start : UInt64) :
    Replacement.kept c start = { c with blocks := c.blocks.filter fun b => b.index < start } := by
  rw [Replacement.kept, takeWhile_index_eq_filter h.pairwise_index]

end Chain

namespace Replacement

theorem applyFull_stepwise (c : Chain) {bs : List Block} (hne : bs ≠ []) :
    ((∃ n, (applyFull c bs).result = .ok n) ↔ ∃ d, bs.foldlM Chain.append Chain.empty = .ok d) ∧
      ∀ n, (applyFull c bs).result = .ok n →
        n = bs.length ∧ (applyFull c bs).chain = { c with blocks := bs } := by
  have hcomplete : (∃ d, bs.foldlM Chain.append Chain.empty = .ok d) ↔
      isComplete bs = true := by
    rw [Chain.exists_foldlM_append_iff, isComplete_iff, Block.isSequence_iff_isChain, and_comm]
    rfl
  by_cases h : isComplete bs = true
  · rw [applyFull_of_isComplete c hne h, hcomplete]
    refine ⟨⟨fun _ => h, fun _ => ⟨_, rfl⟩⟩, ?_⟩
    intro n hn
    cases hn
    exact ⟨rfl, rfl⟩
  · obtain ⟨e, he⟩ := applyFull_of_not_isComplete c hne h
    rw [he, hcomplete]
    exact ⟨⟨nofun, fun h' => absurd h' h⟩, nofun⟩

theorem applySplice_stepwise (c : Chain) (start : UInt64) (bs : List Block) :
    ∃ n longer, n ≤ bs.length ∧ (bs.take n).foldlM Chain.append (kept c start) = .ok longer ∧
      (∀ b, bs[n]? = some b → ∃ e, longer.append b = .error e ∧
        (n = 0 → applySplice c start bs = ⟨c, .error e⟩)) ∧
      (0 < n → applySplice c start bs =
        ⟨{ c with blocks := (kept c start).blocks ++ bs.take n }, .ok n⟩) := by
  obtain ⟨htaken, hrefused⟩ := (kept c start).extend_stepwise bs
  refine ⟨_, _, (kept c start).taken_extend_le bs, htaken, ?_, ?_⟩
  · intro b hb
    obtain ⟨e, hrefusal, he⟩ := hrefused b hb
    exact ⟨e, he, applySplice_eq_error hrefusal⟩
  · intro hpos
    rw [applySplice_eq_ok (Or.inr hpos.ne'), Chain.chain_extend]
    rfl

end Replacement

namespace Chain

/-- A replacement leaves the waiting transactions alone, and an error leaves the whole chain as
it was. -/
theorem replace_frame (c : Chain) (r : Replacement) :
    (c.replace r).chain.pending = c.pending ∧
      ∀ e, (c.replace r).result = .error e → (c.replace r).chain = c := by
  cases r with
  | full bs =>
      change (Replacement.applyFull c bs).chain.pending = c.pending ∧
        ∀ e, (Replacement.applyFull c bs).result = .error e →
          (Replacement.applyFull c bs).chain = c
      by_cases hne : bs = []
      · subst hne
        exact ⟨rfl, nofun⟩
      · by_cases hcomplete : Replacement.isComplete bs = true
        · rw [Replacement.applyFull_of_isComplete c hne hcomplete]
          exact ⟨rfl, nofun⟩
        · obtain ⟨e, he⟩ := Replacement.applyFull_of_not_isComplete c hne hcomplete
          rw [he]
          exact ⟨rfl, fun _ _ => rfl⟩
  | splice start bs =>
      change (Replacement.applySplice c start bs).chain.pending = c.pending ∧
        ∀ e, (Replacement.applySplice c start bs).result = .error e →
          (Replacement.applySplice c start bs).chain = c
      by_cases hne : bs = []
      · subst hne
        exact ⟨rfl, nofun⟩
      · obtain ⟨n, longer, hle, _, hrefused, htaken⟩ :=
          Replacement.applySplice_stepwise c start bs
        rcases Nat.eq_zero_or_pos n with rfl | hpos
        · obtain ⟨b, hb⟩ := Option.isSome_iff_exists.mp (List.isSome_head?.mpr hne)
          rw [List.head?_eq_getElem?] at hb
          obtain ⟨e, _, he⟩ := hrefused b hb
          rw [he rfl]
          exact ⟨rfl, fun _ _ => rfl⟩
        · rw [htaken hpos]
          exact ⟨rfl, nofun⟩

/-- What replacements make of a chain, told by appending blocks one by one. -/
structure ReplacesStepwise (c : Chain) : Prop where
  pending : ∀ r, (c.replace r).chain.pending = c.pending
  refused : ∀ r e, (c.replace r).result = .error e → (c.replace r).chain.blocks = c.blocks
  nothing : c.replace (.full []) = ⟨c, .ok 0⟩
  full : ∀ bs, bs ≠ [] →
    ((∃ n, (c.replace (.full bs)).result = .ok n) ↔ ∃ d, bs.foldlM append empty = .ok d) ∧
      ∀ n, (c.replace (.full bs)).result = .ok n →
        n = bs.length ∧ (c.replace (.full bs)).chain.blocks = bs
  /-- The first `n` blocks are taken by those below the start, and the next one is refused. -/
  splice : ∀ start bs, ∃ n longer, n ≤ bs.length ∧
    (bs.take n).foldlM append { c with blocks := c.blocks.filter fun b => b.index < start } =
      .ok longer ∧
    (∀ b, bs[n]? = some b → ∃ e, longer.append b = .error e ∧
      (n = 0 → (c.replace (.splice start bs)).result = .error e)) ∧
    (0 < n → (c.replace (.splice start bs)).result = .ok n ∧
      (c.replace (.splice start bs)).chain.blocks =
        (c.blocks.filter fun b => b.index < start) ++ bs.take n)

/-- On a chain whose indices count up, a whole chain is swapped in if the chain without blocks
takes all of its blocks, and a splice puts the blocks that are taken up to the first refusal
behind those with an index below its start, if any are. An error leaves all blocks as they were,
and the waiting transactions are left alone in any case. -/
theorem replacesStepwise {c : Chain} (hc : c.IsCounting) : c.ReplacesStepwise where
  pending r := (c.replace_frame r).1
  refused r e he := congrArg Chain.blocks ((c.replace_frame r).2 e he)
  nothing := rfl
  full bs hne := by
    obtain ⟨hiff, hok⟩ := Replacement.applyFull_stepwise c hne
    refine ⟨hiff, fun n hn => ?_⟩
    obtain ⟨hlength, hchain⟩ := hok n hn
    exact ⟨hlength, congrArg Chain.blocks hchain⟩
  splice start bs := by
    obtain ⟨n, longer, hle, hfold, hrefused, htaken⟩ :=
      Replacement.applySplice_stepwise c start bs
    rw [hc.kept_eq] at hfold htaken
    refine ⟨n, longer, hle, hfold, fun b hb => ?_, fun hpos => ?_⟩
    · obtain ⟨e, he, hzero⟩ := hrefused b hb
      exact ⟨e, he, fun hn => congrArg Replacement.Outcome.result (hzero hn)⟩
    · have hresult : c.replace (.splice start bs) = _ := htaken hpos
      rw [hresult]
      exact ⟨rfl, rfl⟩

/-- The first block with two more on top. -/
def twoOnTop : Chain :=
  ofBlocks [Block.genesis, Block.genesis.onTop 1, (Block.genesis.onTop 1).onTop 2]

theorem replacesStepwise_twoOnTop : twoOnTop.IsCounting ∧ twoOnTop.ReplacesStepwise := by
  have hcounting : twoOnTop.IsCounting := by
    rw [IsCounting]
    decide
  exact ⟨hcounting, replacesStepwise hcounting⟩

end Chain

end WorkLedger
