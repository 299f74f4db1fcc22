import WorkLedger.Proofs.Chain.Agreement
import WorkLedger.Proofs.Sync.Ranges

/-!
# Convergence with an honest peer

An exchange with a peer sends the ranges that are asked for out of the peer's
chain, one reply at a time, and ends with the first outcome that is not another
request. If the peer's chain is heavier and has the same first block, requests go
back one block at a time until the reply links to a local block with the hash
that the peer has there. This happens behind the first block at the latest. The
local blocks before it agree with the peer's, so the chain that results has the
peer's hashes and weight, and neither side has anything to ask for any more.
-/

namespace WorkLedger

/-- How an exchange ends. -/
inductive Settlement where
  | discarded
  | extended (count : ℕ)
  | replaced (result : Except ChainError ℕ)

/-- An exchange succeeds when it has taken over blocks of the peer. -/
def Settlement.Succeeded : Settlement → Prop
  | extended count => 0 < count
  | replaced (.ok count) => 0 < count
  | _ => False

namespace Reconciler

/-- An exchange with a peer that starts with a request, and the local chain
afterwards, if a number of replies is enough for it to end. -/
def exchange (policy : Reconciler) (peer : Chain) :
    ℕ → Chain → BlockRange → Option (Settlement × Chain)
  | 0, _, _ => none
  | replies + 1, c, range =>
    match peer.range? range.first range.last with
    | none => none
    | some reply =>
      match policy.reconcile c reply with
      | (.discarded, d) => some (.discarded, d)
      | (.extended count, d) => some (.extended count, d)
      | (.replace r, d) => some (.replaced (d.replace r).result, (d.replace r).chain)
      | (.requestRange next, d) => exchange policy peer replies d next

/-- A summary of a chain with the same first hash that is not heavier is
ignored. -/
theorem onSummary_eq_ignore (policy : Reconciler) {c : Chain} {first tail : Block}
    (hc : c.blocks ≠ []) (hfirst : c.first?.map Block.hash = some first.hash)
    {weight : UInt64} (hweight : weight ≤ c.weight) :
    policy.onSummary c first tail weight = .ignore := by
  obtain ⟨localFirst, hlocal, hhash⟩ := Option.map_eq_some_iff.mp hfirst
  have htail : c.tail? = some (c.blocks.getLast hc) := List.getLast?_eq_some_getLast hc
  simp [onSummary, hlocal, htail, hhash, hweight]

end Reconciler

/-- The local chain and that of a peer: blocks stand in place in both, the local
chain fits into memory, no hashed texts collide, the first hashes are the same,
and the peer's chain is heavier. -/
structure Rivals (l r : Chain) : Prop where
  own : l.InPlace
  peer : r.InPlace
  fits : l.Fits
  free : Block.CollisionFree (l.blocks ++ r.blocks)
  opening : l.first?.map Block.hash = r.first?.map Block.hash
  heavier : l.weight < r.weight

/-- Both chains have a block at a position, and the peer's goes on with `f`. -/
structure Junction (l r : Chain) (i : ℕ) (b d f : Block) : Prop where
  own : l.blocks[i]? = some b
  peer : r.blocks[i]? = some d
  next : r.blocks[i + 1]? = some f

namespace Rivals

variable {l r : Chain} (h : Rivals l r)

include h

theorem peer_fits : r.Fits := by
  apply h.peer.fits_of_weight_ne_zero
  intro hzero
  have hheavier := h.heavier
  rw [hzero] at hheavier
  exact UInt64.not_lt_zero hheavier

/-- The local chain does not have the hash of the peer's last block at its
position, or it would be no lighter. -/
theorem hash_ne_tail {tail b : Block} (htail : r.tail? = some tail)
    (hb : l.blocks[tail.index.toNat]? = some b) : b.hash ≠ tail.hash := by
  intro hhash
  have hlength := h.peer.toNat_index_tail htail
  have hd : r.blocks[tail.index.toNat]? = some tail := by
    rw [Chain.tail?, List.getLast?_eq_getElem?, ← hlength] at htail
    exact htail
  have hagree := Chain.agreeBelow_of_hash h.own h.peer h.free hb hd hhash
  rw [hlength] at hagree
  have hle := hagree.weight_le h.own h.fits h.peer h.peer_fits
  exact absurd h.heavier (UInt64.not_lt.mpr hle)

theorem isKnown_eq_false {tail : Block} (htail : r.tail? = some tail)
    {candidate : List Block} (hmem : tail ∈ candidate) :
    Reconciler.isKnown l candidate = false := by
  apply Reconciler.isKnown_eq_false hmem
  intro known hknown
  rw [h.own.get?_eq] at hknown
  exact h.hash_ne_tail htail hknown

theorem hash_zero {b d : Block} (hb : l.blocks[0]? = some b) (hd : r.blocks[0]? = some d) :
    b.hash = d.hash := by
  have hopening := h.opening
  rw [Chain.first?, Chain.first?, List.head?_eq_getElem?, List.head?_eq_getElem?, hb, hd]
    at hopening
  exact Option.some.inj hopening

/-- The peer has more than one block. -/
theorem one_lt_length : 1 < r.blocks.length := by
  by_contra hshort
  have hpos : 0 < r.blocks.length := List.length_pos_iff.mpr h.peer.ne_nil
  have hposl : 0 < l.blocks.length := List.length_pos_iff.mpr h.own.ne_nil
  have htail := List.getLast?_eq_some_getLast h.peer.ne_nil
  have hlength := h.peer.toNat_index_tail htail
  have hzero : (r.blocks.getLast h.peer.ne_nil).index.toNat = 0 := by omega
  have hd : r.blocks[0]? = some (r.blocks.getLast h.peer.ne_nil) := by
    rw [← htail, List.getLast?_eq_getElem?]
    congr 1
    omega
  have hb := List.getElem?_eq_getElem hposl
  have hsame := h.hash_zero hb hd
  apply h.hash_ne_tail htail _ hsame
  rw [hzero]
  exact hb

section

variable {i : ℕ} {b d f tail : Block} (hj : Junction l r i b d f)

include hj

theorem index_next : f.index = d.index + 1 ∧ f.previousHash = d.hash := by
  have hfollows := (Block.follows_iff f d).mp
    (h.peer.sound.follows hj.peer hj.next)
  exact ⟨hfollows.1, hfollows.2.1⟩

theorem linksInto_eq : Reconciler.linksInto l f = (b.hash == d.hash) := by
  obtain ⟨hindex, hprevious⟩ := h.index_next hj
  have hget : l.get? (f.index - 1) = some b := by
    rw [hindex, UInt64.add_sub_cancel, h.own.get?_eq, h.peer.index i d hj.peer]
    exact hj.own
  rw [Reconciler.linksInto, hget, hprevious]
  rfl

theorem splice_joined (hhash : b.hash = d.hash) :
    Replacement.applySplice l f.index (r.blocks.drop (i + 1)) =
      ⟨Chain.joined l r (i + 1), .ok (r.blocks.drop (i + 1)).length⟩ := by
  have hkept : (Replacement.kept l f.index).blocks = l.blocks.take (i + 1) := by
    rw [Replacement.kept, h.own.takeWhile_index, h.peer.index _ f hj.next]
  rw [Replacement.applySplice_of_isChain, hkept]
  · rfl
  · intro x hx
    exact h.peer.sound.genuine x (List.mem_of_mem_drop hx)
  · rw [hkept]
    exact Chain.isChain_joined h.own h.peer hj.own hj.peer hhash

theorem placement_drop (htail : r.tail? = some tail) {localTail : Block}
    (hlocal : l.tail? = some localTail) :
    Reconciler.placement l localTail f tail (r.blocks.drop (i + 1)) =
      if b.hash = d.hash then
        if i + 1 < l.blocks.length then
          some (.replace (.splice f.index (r.blocks.drop (i + 1))))
        else none
      else some (.requestRange ⟨d.index, tail.index⟩) := by
  have hlt : i < l.blocks.length := (List.getElem?_eq_some_iff.mp hj.own).1
  have hlength := h.own.toNat_index_tail hlocal
  have hnext := h.own.toNat_next h.fits hlocal
  have hindex : f.index.toNat = i + 1 := h.peer.index _ f hj.next
  have hnonzero : f.index ≠ 0 := by
    intro hzero
    rw [hzero] at hindex
    cases hindex
  have hnear : f.index ≤ localTail.index + 1 := by
    rw [UInt64.le_iff_toNat_le, hindex, hnext]
    exact hlt
  have hwithin : f.index ≤ localTail.index ↔ i + 1 < l.blocks.length := by
    rw [UInt64.le_iff_toNat_le, hindex]
    omega
  have hlast := Chain.getLast?_drop htail (List.getElem?_eq_some_iff.mp hj.next).1
  have hknown := h.isKnown_eq_false htail (List.mem_of_getLast? hlast)
  simp only [Reconciler.placement, hknown, hnonzero, hnear, h.linksInto_eq hj, hwithin,
    Bool.false_eq_true, if_false, true_and, beq_eq_false_iff_ne]
  by_cases hhash : b.hash = d.hash
  · rw [if_pos hhash, if_neg (not_not.mpr hhash)]
    by_cases hshort : i + 1 < l.blocks.length
    · rw [if_pos hshort, if_pos hshort]
    · have hend : f.index = localTail.index + 1 := by
        rw [← UInt64.toNat_inj, hindex, hnext]
        omega
      rw [if_neg hshort, if_neg hshort, if_pos hend]
  · rw [if_neg hhash, if_pos hhash, (h.index_next hj).1, UInt64.add_sub_cancel]

/-- What becomes of the peer's blocks behind a position: if they link there, they
are spliced in or appended, and otherwise the block before is asked for, too. -/
theorem reconcile_drop (policy : Reconciler) (htail : r.tail? = some tail) :
    policy.reconcile l (r.blocks.drop (i + 1)) =
      if b.hash = d.hash then
        if i + 1 < l.blocks.length then
          (.replace (.splice f.index (r.blocks.drop (i + 1))), l)
        else (.extended (r.blocks.drop (i + 1)).length, Chain.joined l r (i + 1))
      else (.requestRange ⟨d.index, tail.index⟩, l) := by
  have hhead : (r.blocks.drop (i + 1)).head? = some f := by
    rw [List.head?_drop]
    exact hj.next
  have hsequence : Block.isSequence (r.blocks.drop (i + 1)) = true :=
    (Block.isSequence_iff_isChain _).mpr (h.peer.sound.isChain.drop (i + 1))
  have hlast := Chain.getLast?_drop htail (List.getElem?_eq_some_iff.mp hj.next).1
  have hlocal := List.getLast?_eq_some_getLast h.own.ne_nil
  rw [Reconciler.reconcile_of_tail policy hlocal hhead hlast hsequence,
    h.placement_drop hj htail hlocal]
  by_cases hhash : b.hash = d.hash
  · by_cases hshort : i + 1 < l.blocks.length
    · simp only [hhash, hshort, if_true]
    · have hwhole : l.blocks.take (i + 1) = l.blocks :=
        List.take_of_length_le (not_lt.mp hshort)
      have hextend := Chain.extend_joined h.own h.peer hj.own hj.peer hhash
      rw [hwhole] at hextend
      simp only [hhash, hshort, if_true, if_false]
      rw [hextend]
  · simp only [hhash, if_false]

/-- A reply from a position where the chains have the same hash settles the
exchange. -/
theorem exchange_of_hash (policy : Reconciler) (htail : r.tail? = some tail) (replies : ℕ)
    (hhash : b.hash = d.hash) :
    ∃ settlement : Settlement, settlement.Succeeded ∧
      policy.exchange r (replies + 1) l ⟨f.index, tail.index⟩ =
        some (settlement, Chain.joined l r (i + 1)) := by
  have hpos : 0 < (r.blocks.drop (i + 1)).length := by
    rw [List.length_drop]
    have hlt := (List.getElem?_eq_some_iff.mp hj.next).1
    omega
  have hresult := h.reconcile_drop hj policy htail
  rw [if_pos hhash] at hresult
  rw [Reconciler.exchange, h.peer.range?_tail hj.next htail]
  by_cases hshort : i + 1 < l.blocks.length
  · rw [if_pos hshort] at hresult
    refine ⟨.replaced (.ok (r.blocks.drop (i + 1)).length), hpos, ?_⟩
    simp only [hresult, Chain.replace, h.splice_joined hj hhash]
  · rw [if_neg hshort] at hresult
    refine ⟨.extended (r.blocks.drop (i + 1)).length, hpos, ?_⟩
    simp only [hresult]

theorem exchange_of_hash_ne (policy : Reconciler) (htail : r.tail? = some tail)
    (replies : ℕ) (hhash : b.hash ≠ d.hash) :
    policy.exchange r (replies + 1) l ⟨f.index, tail.index⟩ =
      policy.exchange r replies l ⟨d.index, tail.index⟩ := by
  have hresult := h.reconcile_drop hj policy htail
  rw [if_neg hhash] at hresult
  rw [Reconciler.exchange, h.peer.range?_tail hj.next htail]
  simp only [hresult]

end

/-- An exchange ends behind a common hash, after no more replies than there are
positions to go back to. -/
theorem exists_exchange (policy : Reconciler) {tail : Block} (htail : r.tail? = some tail)
    {i replies : ℕ} (hreplies : i < replies) {b d f : Block} (hj : Junction l r i b d f) :
    ∃ (settlement : Settlement) (k : ℕ) (b' d' : Block),
      settlement.Succeeded ∧ l.blocks[k]? = some b' ∧ r.blocks[k]? = some d' ∧
        b'.hash = d'.hash ∧ policy.exchange r replies l ⟨f.index, tail.index⟩ =
          some (settlement, Chain.joined l r (k + 1)) := by
  obtain ⟨replies, rfl⟩ := Nat.exists_eq_succ_of_ne_zero (Nat.ne_zero_of_lt hreplies)
  induction i generalizing b d f replies with
  | zero =>
      have hhash := h.hash_zero hj.own hj.peer
      obtain ⟨settlement, hsucceeded, hresult⟩ :=
        h.exchange_of_hash hj policy htail replies hhash
      exact ⟨settlement, 0, b, d, hsucceeded, hj.own, hj.peer, hhash, hresult⟩
  | succ i ih =>
      by_cases hhash : b.hash = d.hash
      · obtain ⟨settlement, hsucceeded, hresult⟩ :=
          h.exchange_of_hash hj policy htail replies hhash
        exact ⟨settlement, i + 1, b, d, hsucceeded, hj.own, hj.peer, hhash, hresult⟩
      · have hltl := Nat.lt_of_succ_lt (List.getElem?_eq_some_iff.mp hj.own).1
        have hltr := Nat.lt_of_succ_lt (List.getElem?_eq_some_iff.mp hj.peer).1
        have hback : Junction l r i l.blocks[i] r.blocks[i] d :=
          ⟨List.getElem?_eq_getElem hltl, List.getElem?_eq_getElem hltr, hj.peer⟩
        rw [h.exchange_of_hash_ne hj policy htail replies hhash]
        obtain ⟨fewer, rfl⟩ :=
          Nat.exists_eq_succ_of_ne_zero (show replies ≠ 0 by omega)
        exact ih hback fewer (by omega)

/-- The summary of the peer's chain makes a node ask for the peer's blocks from
behind a position where both chains have one. -/
theorem exists_onSummary (policy : Reconciler) {first tail : Block}
    (hfirst : r.first? = some first) (htail : r.tail? = some tail) :
    ∃ (i : ℕ) (b d f : Block), i < l.blocks.length ∧ Junction l r i b d f ∧
      policy.onSummary l first tail r.weight =
        .requestRange ⟨f.index, tail.index⟩ := by
  have hposl : 0 < l.blocks.length := List.length_pos_iff.mpr h.own.ne_nil
  have hpeer := h.one_lt_length
  obtain ⟨i, hi⟩ : ∃ i, min l.blocks.length (r.blocks.length - 1) = i + 1 :=
    Nat.exists_eq_succ_of_ne_zero (by omega)
  have hltl : i < l.blocks.length := by omega
  have hltr : i + 1 < r.blocks.length := by omega
  refine ⟨i, l.blocks[i], r.blocks[i], r.blocks[i + 1], hltl,
    ⟨List.getElem?_eq_getElem hltl, List.getElem?_eq_getElem (Nat.lt_of_succ_lt hltr),
      List.getElem?_eq_getElem hltr⟩, ?_⟩
  have hopening := h.opening
  rw [hfirst, Option.map_some] at hopening
  obtain ⟨localFirst, hlocal, hhash⟩ := Option.map_eq_some_iff.mp hopening
  have hltail : l.tail? = some (l.blocks.getLast h.own.ne_nil) :=
    List.getLast?_eq_some_getLast h.own.ne_nil
  have hlengthl := h.own.toNat_index_tail hltail
  have hlengthr := h.peer.toNat_index_tail htail
  have hnext : ((l.blocks.getLast h.own.ne_nil).index + 1).toNat = l.blocks.length :=
    h.own.toNat_next h.fits hltail
  have hfrom : min ((l.blocks.getLast h.own.ne_nil).index + 1) tail.index =
      r.blocks[i + 1].index := by
    have hindex := h.peer.index _ _ (List.getElem?_eq_getElem hltr)
    rw [← UInt64.toNat_inj, hindex]
    change (if _ then _ else _ : UInt64).toNat = i + 1
    split
    · next hle =>
        rw [UInt64.le_iff_toNat_le] at hle
        omega
    · next hgt =>
        rw [UInt64.le_iff_toNat_le] at hgt
        omega
  have hweight : ¬ r.weight ≤ l.weight := UInt64.not_le.mpr h.heavier
  simp [Reconciler.onSummary, hlocal, hltail, hhash, hweight, hfrom]

/-- A node that hears of a heavier chain with its own first block asks for a
range, and the exchange that begins with it ends after at most as many replies
as the node has blocks. It takes over blocks, leaves the node with the hashes of
the peer, and then neither of the two has anything to ask the other one for. -/
theorem converge {first tail : Block} (hfirst : r.first? = some first)
    (htail : r.tail? = some tail) (policy other : Reconciler) :
    ∃ (range : BlockRange) (settlement : Settlement) (c : Chain),
      policy.onSummary l first tail r.weight = .requestRange range ∧
        policy.exchange r l.blocks.length l range = some (settlement, c) ∧
        settlement.Succeeded ∧ c.blocks.map Block.hash = r.blocks.map Block.hash ∧
        policy.onSummary c first tail r.weight = .ignore ∧
        ∃ first' tail', c.first? = some first' ∧ c.tail? = some tail' ∧
          other.onSummary r first' tail' c.weight = .ignore := by
  obtain ⟨i, b, d, f, hltl, hj, hrequest⟩ := h.exists_onSummary policy hfirst htail
  obtain ⟨settlement, k, b', d', hsucceeded, hb, hd, hhash, hexchange⟩ :=
    h.exists_exchange policy htail hltl hj
  have hagree := Chain.agreeBelow_of_hash h.own h.peer h.free hb hd hhash
  have hsound := Chain.sound_joined h.own h.peer hb hd hhash
  have hstamps := hagree.stamps_joined
  have hweight := Chain.weight_eq_of_stamps hsound h.peer h.peer_fits hstamps
  have hhashes := Block.hashes_of_stamps hstamps
  have hfirsthash : (Chain.joined l r (k + 1)).first?.map Block.hash = some first.hash := by
    rw [Chain.first?, ← List.head?_map, hhashes, List.head?_map, ← Chain.first?, hfirst,
      Option.map_some]
  refine ⟨⟨f.index, tail.index⟩, settlement, Chain.joined l r (k + 1), hrequest, hexchange,
    hsucceeded, hhashes, ?_, ?_⟩
  · exact policy.onSummary_eq_ignore hsound.ne_nil hfirsthash
      (UInt64.le_of_eq hweight.symm)
  · obtain ⟨first', hfirst', hsame⟩ := Option.map_eq_some_iff.mp hfirsthash
    have htail' := List.getLast?_eq_some_getLast hsound.ne_nil
    refine ⟨first', _, hfirst', htail', ?_⟩
    apply other.onSummary_eq_ignore h.peer.ne_nil _ (UInt64.le_of_eq hweight)
    rw [hfirst, Option.map_some, hsame]

end Rivals

namespace Rivals

/-- One block on top of the first one. -/
def short : Chain := .ofBlocks [.genesis, Block.genesis.onTop 1]

/-- Two other blocks on top of the first one. -/
def long : Chain :=
  .ofBlocks [.genesis, Block.genesis.onTop 2, (Block.genesis.onTop 2).onTop 3]

theorem inPlace_short : short.InPlace := by
  have hsound : short.Sound := Chain.sound_start.onTop rfl 1
  exact hsound.inPlace (by rw [Chain.Fits]; decide)

theorem inPlace_long : long.InPlace := by
  have hbranch := Chain.sound_start.onTop rfl 2
  have hsound : long.Sound := hbranch.onTop rfl 3
  exact hsound.inPlace (by rw [Chain.Fits]; decide)

theorem collisionFree_short_long : Block.CollisionFree (short.blocks ++ long.blocks) := by
  have hone : (Block.genesis.onTop 1).hash =
      "c72f9d0a51db156ed61c8a801756e25195ab1e33174086c1581ce17b66aa09ad" := by
    rw [Block.onTop, Block.hash_genesis]
    decide +kernel
  have htwo : (Block.genesis.onTop 2).hash =
      "ef2f155e6358998138bcce5ab92c442ef6836ac72734ca1017a9c633a81633bc" := by
    rw [Block.onTop, Block.hash_genesis]
    decide +kernel
  have hthree : ((Block.genesis.onTop 2).onTop 3).hash =
      "8fe1c5746a20c0dcf6e8f141910068423aa391f1f0a0f2e4cfdac5ac5b04404e" := by
    rw [Block.onTop, htwo]
    decide +kernel
  have hdigest : Block.digestOf [] =
      "e3b0c44298fc1c149afbf4c8996fb92427ae41e4649b934ca495991b7852b855" := by
    decide +kernel
  have hfree : Block.CollisionFree (Block.genesis.onTop 1 :: long.blocks) := by
    apply Block.collisionFree_of_nodup [[]]
    · intro b hb
      rcases List.mem_cons.mp hb with rfl | hlong
      · exact inPlace_short.hash _ (List.mem_cons_of_mem _ List.mem_cons_self)
      · exact inPlace_long.hash b hlong
    · simp only [long, Chain.blocks_ofBlocks, List.forall_mem_cons]
      have hempty : [] ∈ [([] : List Transaction)] := List.mem_singleton_self _
      exact ⟨hempty, hempty, hempty, hempty, fun _ hb => absurd hb List.not_mem_nil⟩
    · simp only [List.map_cons, List.map_nil, List.cons_append, List.nil_append, long,
        Chain.blocks_ofBlocks, Block.hash_genesis, hone, htwo, hthree, hdigest]
      decide +kernel
  apply hfree.of_subset
  intro b hb
  rcases List.mem_append.mp hb with hshort | hlong
  · rcases List.mem_cons.mp hshort with rfl | hone
    · exact List.mem_cons_of_mem _ List.mem_cons_self
    · rw [List.mem_singleton.mp hone]
      exact List.mem_cons_self
  · exact List.mem_cons_of_mem _ hlong

theorem first?_short : short.first? = some .genesis := rfl

theorem first?_long : long.first? = some .genesis := rfl

theorem rivals_short_long : Rivals short long where
  own := inPlace_short
  peer := inPlace_long
  fits := by rw [Chain.Fits]; decide
  free := collisionFree_short_long
  opening := by rw [first?_short, first?_long]
  heavier := by decide

theorem converge_short_long :
    Rivals short long ∧
      ∃ (range : BlockRange) (settlement : Settlement) (c : Chain),
        (Reconciler.mk false).onSummary short .genesis
            ((Block.genesis.onTop 2).onTop 3) long.weight = .requestRange range ∧
          (Reconciler.mk false).exchange long short.blocks.length short range =
            some (settlement, c) ∧
          settlement.Succeeded ∧
          c.blocks.map Block.hash = long.blocks.map Block.hash ∧
          (Reconciler.mk false).onSummary c .genesis
            ((Block.genesis.onTop 2).onTop 3) long.weight = .ignore ∧
          ∃ first' tail', c.first? = some first' ∧ c.tail? = some tail' ∧
            (Reconciler.mk true).onSummary long first' tail' c.weight = .ignore :=
  ⟨rivals_short_long, converge rivals_short_long first?_long rfl ⟨false⟩ ⟨true⟩⟩

end Rivals

end WorkLedger
