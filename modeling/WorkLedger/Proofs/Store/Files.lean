import WorkLedger.BlockStore
import WorkLedger.Proofs.Block.Encoding
import WorkLedger.Proofs.Chain.Sound
import WorkLedger.Proofs.Decimal.Padded

/-!
# The files of blocks

The names of files are in the order of the indices that they hold, as long as these fit into the
digits that a name has for them. A block with an index above all stored ones therefore gets the last
file, and its draft leaves no trace.
-/

namespace WorkLedger

namespace Folder

variable {f : Folder} {name : String}

theorem put_eq_append (h : ∀ entry ∈ f, entry.1 < name) (e : Entry) :
    put name e f = f ++ [(name, e)] := by
  induction f with
  | nil => rfl
  | cons entry rest ih =>
      obtain ⟨hfirst, hrest⟩ := List.forall_mem_cons.mp h
      obtain ⟨n, old⟩ := entry
      rw [put, if_neg (String.lt_asymm hfirst), if_neg (ne_of_lt hfirst), ih hrest,
        List.cons_append]

theorem get?_eq_none (h : ∀ entry ∈ f, entry.1 ≠ name) : get? name f = none := by
  induction f with
  | nil => rfl
  | cons entry rest ih =>
      obtain ⟨hfirst, hrest⟩ := List.forall_mem_cons.mp h
      obtain ⟨n, old⟩ := entry
      rw [get?, if_neg hfirst, ih hrest]

theorem erase_append_singleton (h : ∀ entry ∈ f, entry.1 ≠ name) (e : Entry) :
    erase name (f ++ [(name, e)]) = f := by
  rw [erase, List.filter_append, List.filter_eq_self.mpr fun entry hentry => bne_iff_ne.mpr
    (h entry hentry)]
  simp

end Folder

/-- The amounts of a block are finite and read back. -/
def Block.ReadsBack (b : Block) : Prop :=
  ∀ x ∈ b.amounts, x.isFinite = true ∧ Amount.ReadsBack x

namespace BlockStore

theorem isFileName_fileName (index : UInt64) : isFileName (fileName index) = true := by
  rw [isFileName, Bool.and_eq_true, List.isPrefixOf_iff_prefix, List.isSuffixOf_iff_suffix,
    fileName, stem, String.toList_append, String.toList_append]
  exact ⟨(List.prefix_append _ _).trans (List.prefix_append _ _), List.suffix_append _ _⟩

theorem fileName_ne_draftName (index : UInt64) : fileName index ≠ draftName index := by
  rw [fileName, draftName]
  intro h
  rw [String.append_right_inj] at h
  exact absurd h (by decide)

section

variable {i j : UInt64} (hj : j.toNat < 10 ^ 10)

include hj

theorem utf8ByteSize_stem : (stem j).utf8ByteSize = 16 := by
  rw [stem, String.utf8ByteSize_append, Decimal.utf8ByteSize_paddedText hj (by decide)]
  rfl

theorem utf8ByteSize_fileName : (fileName j).utf8ByteSize = 21 := by
  rw [fileName, String.utf8ByteSize_append, utf8ByteSize_stem hj]
  rfl

theorem stem_append_lt (hij : i < j) (s t : String) : stem i ++ s < stem j ++ t := by
  have hlt := Decimal.paddedText_append_lt hj (by decide) (UInt64.lt_iff_toNat_lt.mp hij) s t
  rw [String.lt_iff_toList_lt] at hlt ⊢
  simp only [stem, String.toList_append, List.append_assoc] at hlt ⊢
  exact List.append_left_lt hlt

end

/-- The file of a block. -/
def fileOf (b : Block) : String × Entry := (fileName b.index, .file (.text b.toJson.pretty))

theorem readBlock_fileOf {b d : Block} (h : Block.decoder.Reads b.toJson d) :
    readBlock (fileOf b).2 = .ok d := by
  have hread : Block.decoder.whole (Content.text b.toJson.pretty).document = .ok d :=
    h.read_pretty
  simp only [fileOf, readBlock, hread]

/-- A block with an index above those of some blocks gets a name behind theirs. -/
theorem fst_lt {bs : List Block} {b : Block} (habove : ∀ d ∈ bs, d.index < b.index)
    (hsmall : b.index.toNat < 10 ^ 10) (suffix : String) :
    ∀ entry ∈ bs.map fileOf, entry.1 < stem b.index ++ suffix := by
  intro entry hentry
  obtain ⟨d, hd, rfl⟩ := List.mem_map.mp hentry
  exact stem_append_lt hsmall (habove d hd) _ _

theorem pairwise_names {bs : List Block} (hup : bs.Pairwise fun x y => x.index < y.index)
    (hsmall : ∀ b ∈ bs, b.index.toNat < 10 ^ 10) :
    (Folder.names (bs.map fileOf)).Pairwise (· < ·) := by
  rw [Folder.names, List.map_map, List.pairwise_map]
  refine hup.imp_of_mem fun _ hy hxy => ?_
  exact stem_append_lt (hsmall _ hy) hxy _ _

/-- A store holds the files of some blocks in the order of the blocks, and nothing else. -/
structure Keeps (s : BlockStore) (bs : List Block) : Prop where
  place : s.place = some (.folder (bs.map fileOf))
  room : 21 ≤ s.room

namespace Keeps

variable {s : BlockStore} {bs : List Block} (h : s.Keeps bs)

include h

theorem admits {name : String} (hname : name.utf8ByteSize ≤ 21) : s.admits name = true :=
  decide_eq_true (hname.trans h.room)

theorem admits_fileName {index : UInt64} (hsmall : index.toNat < 10 ^ 10) :
    s.admits (fileName index) = true := h.admits (utf8ByteSize_fileName hsmall).le

theorem entries : s.entries = .ok (bs.map fileOf) := by
  rw [BlockStore.entries, h.place]

theorem reset : s.reset.result = .ok () ∧ s.reset.store.Keeps [] := by
  rw [BlockStore.reset, h.place]
  exact ⟨rfl, rfl, h.room⟩

section

variable {b : Block} (habove : ∀ d ∈ bs, d.index < b.index) (hsmall : b.index.toNat < 10 ^ 10)

include habove hsmall

theorem settle (draft : Entry) :
    s.settle (bs.map fileOf ++ [(draftName b.index, draft)]) b.index draft =
      ⟨s.holding (bs.map fileOf ++ [(fileName b.index, draft)]), .ok ()⟩ := by
  have hadmits : s.admits (fileName b.index) = true := h.admits_fileName hsmall
  have hdraft : ∀ entry ∈ bs.map fileOf, entry.1 < draftName b.index := fst_lt habove hsmall _
  have hfile : ∀ entry ∈ bs.map fileOf, entry.1 < fileName b.index := fst_lt habove hsmall _
  have hnone : Folder.get? (fileName b.index)
      (bs.map fileOf ++ [(draftName b.index, draft)]) = none := by
    apply Folder.get?_eq_none
    intro entry hentry
    rcases List.mem_append.mp hentry with hold | hnew
    · exact ne_of_lt (hfile entry hold)
    · rw [List.mem_singleton.mp hnew]
      exact (fileName_ne_draftName b.index).symm
  have herase : Folder.erase (draftName b.index)
      (bs.map fileOf ++ [(draftName b.index, draft)]) = bs.map fileOf :=
    Folder.erase_append_singleton (fun entry hentry => ne_of_lt (hdraft entry hentry)) draft
  simp only [BlockStore.settle, hadmits, hnone, herase, Folder.put_eq_append hfile]
  rfl

/-- A block with an index above the stored ones is stored behind them. -/
theorem write : (s.write b).result = .ok () ∧ (s.write b).store.Keeps (bs ++ [b]) := by
  have hadmits : s.admits (draftName b.index) = true := by
    apply h.admits
    rw [draftName, String.utf8ByteSize_append, utf8ByteSize_stem hsmall]
    decide
  have hdraft : ∀ entry ∈ bs.map fileOf, entry.1 < draftName b.index := fst_lt habove hsmall _
  have hnone : Folder.get? (draftName b.index) (bs.map fileOf) = none :=
    Folder.get?_eq_none fun entry hentry => ne_of_lt (hdraft entry hentry)
  have hwrite : s.write b = ⟨s.holding ((bs ++ [b]).map fileOf), .ok ()⟩ := by
    simp only [BlockStore.write, hadmits, h.entries, hnone, Folder.put_eq_append hdraft,
      h.settle habove hsmall, List.map_append]
    rfl
  rw [hwrite]
  exact ⟨rfl, rfl, h.room⟩

end

section

variable {ds : List Block} (hup : (bs ++ ds).Pairwise fun x y => x.index < y.index)
  (hsmall : ∀ d ∈ ds, d.index.toNat < 10 ^ 10)

include hup hsmall

theorem write_cons {d : Block} {rest : List Block} (hds : ds = d :: rest) :
    (s.write d).result = .ok () ∧ (s.write d).store.Keeps (bs ++ [d]) := by
  subst hds
  refine h.write (fun x hx => ?_) (hsmall d List.mem_cons_self)
  exact (List.pairwise_append.mp hup).2.2 x hx d List.mem_cons_self

theorem writeAll : (s.writeAll ds).result = .ok () ∧ (s.writeAll ds).store.Keeps (bs ++ ds) := by
  induction ds generalizing s bs with
  | nil =>
      rw [List.append_nil]
      exact ⟨rfl, h⟩
  | cons d rest ih =>
      obtain ⟨hresult, hkeeps⟩ := h.write_cons hup hsmall rfl
      rw [List.append_cons] at hup ⊢
      cases hwrite : s.write d with
      | mk t result =>
          rw [hwrite] at hresult hkeeps
          obtain rfl : result = .ok () := hresult
          simp only [BlockStore.writeAll, hwrite]
          exact ih hkeeps hup fun x hx => hsmall x (List.mem_cons_of_mem d hx)

theorem writeEach : (s.writeEach ds).Keeps (bs ++ ds) := by
  induction ds generalizing s bs with
  | nil =>
      rw [List.append_nil]
      exact h
  | cons d rest ih =>
      obtain ⟨_, hkeeps⟩ := h.write_cons hup hsmall rfl
      rw [List.append_cons] at hup ⊢
      exact ih hkeeps hup fun x hx => hsmall x (List.mem_cons_of_mem d hx)

end

/-- A store forgets what it holds and takes other blocks. -/
theorem refill {ds : List Block} (hup : ds.Pairwise fun x y => x.index < y.index)
    (hsmall : ∀ d ∈ ds, d.index.toNat < 10 ^ 10) :
    (s.refill ds).result = .ok () ∧ (s.refill ds).store.Keeps ds := by
  obtain ⟨hresult, hkeeps⟩ := h.reset
  cases hreset : s.reset with
  | mk t result =>
      rw [hreset] at hresult hkeeps
      obtain rfl : result = .ok () := hresult
      simp only [BlockStore.refill, hreset]
      exact hkeeps.writeAll hup hsmall

section

variable (hsmall : ∀ b ∈ bs, b.index.toNat < 10 ^ 10)

include hsmall

/-- The stored blocks are what is read from the texts of the blocks that were written. -/
theorem load {g : Block → Block} (hread : ∀ b ∈ bs, Block.decoder.Reads b.toJson (g b)) :
    s.load = .ok (bs.map g) := by
  have hfiles : ((bs.map fileOf).filter fun entry => isFileName entry.1) = bs.map fileOf := by
    rw [List.filter_eq_self]
    intro entry hentry
    obtain ⟨b, _, rfl⟩ := List.mem_map.mp hentry
    exact isFileName_fileName b.index
  rw [BlockStore.load, h.entries]
  change s.readBlocks (bs.map fileOf) = _
  rw [readBlocks, hfiles, List.mapM_map]
  refine mapM_eq_ok fun b hb => ?_
  exact (if_pos (h.admits_fileName (hsmall b hb))).trans (readBlock_fileOf (hread b hb))

theorem load_of_readsBack (hread : ∀ b ∈ bs, b.ReadsBack) : s.load = .ok bs := by
  have hload := h.load hsmall (g := id) fun b hb => b.reads_decoder (hread b hb)
  rwa [List.map_id] at hload

/-- A store that holds the blocks of a sound chain is started from. -/
theorem restore (hread : ∀ b ∈ bs, b.ReadsBack) (hsound : (Chain.ofBlocks bs).Sound) (c : Chain) :
    s.restore c = ⟨s, .ofBlocks bs, .ok ()⟩ := by
  obtain ⟨first, hfirst, hzero⟩ := hsound.opens
  obtain ⟨rest, rfl⟩ := List.head?_eq_some_iff.mp hfirst
  have hvalid : Block.isSequence (first :: rest) = true := hsound.isValid
  have hnone : objection? (first :: rest) = none := by
    rw [objection?, if_neg (by simp [hzero]), if_pos hvalid]
  simp only [BlockStore.restore, h.load_of_readsBack hsmall hread, hnone]

end

end Keeps

/-- A store is not started from if its blocks are no sequence. -/
theorem restore_of_isSequence_eq_false {s : BlockStore} {bs : List Block} (hload : s.load = .ok bs)
    (hbs : Block.isSequence bs = false) (c : Chain) : ∃ e, s.restore c = ⟨s, c, .error e⟩ := by
  cases bs with
  | nil => cases hbs
  | cons b rest =>
      obtain ⟨e, he⟩ : ∃ e, objection? (b :: rest) = some e := by
        rw [objection?, hbs]
        split
        · exact ⟨_, rfl⟩
        · exact ⟨_, rfl⟩
      refine ⟨e, ?_⟩
      simp only [BlockStore.restore, hload, he]

/-- A store that could be written to has room for the names of files. -/
theorem room_of_write {s : BlockStore} {b : Block} (hsmall : b.index.toNat < 10 ^ 10)
    (h : (s.write b).result = .ok ()) : 21 ≤ s.room := by
  by_contra hshort
  have hname : s.admits (fileName b.index) = false := by
    rw [BlockStore.admits, decide_eq_false_iff_not, utf8ByteSize_fileName hsmall]
    exact hshort
  rw [write] at h
  split at h
  · cases h
  · split at h
    · cases h
    · split at h
      · cases h
      · rw [settle, if_pos (by rw [hname]; rfl)] at h
        cases h

section

variable {s : BlockStore} (hempty : s.place = some (.folder [])) (c : Chain)

include hempty

theorem restore_of_empty : s.restore c =
    ⟨(s.writeAll Chain.start.blocks).store, .start, (s.writeAll Chain.start.blocks).result⟩ := by
  have hload : s.load = .ok [] := by
    rw [BlockStore.load, BlockStore.entries, hempty]
    rfl
  rw [BlockStore.restore, hload]

theorem writeAll_start (hroom : 21 ≤ s.room) :
    (s.writeAll Chain.start.blocks).result = .ok () ∧
      (s.writeAll Chain.start.blocks).store.Keeps Chain.start.blocks := by
  have hkeeps : s.Keeps [] := ⟨hempty, hroom⟩
  refine hkeeps.writeAll (List.pairwise_singleton _ _) fun d hd => ?_
  rw [List.mem_singleton.mp hd]
  decide

/-- A new chain is started with over a store without files that has room for names. -/
theorem result_restore (hroom : 21 ≤ s.room) : (s.restore c).result = .ok () := by
  rw [restore_of_empty hempty]
  exact (writeAll_start hempty hroom).1

/-- A store without files that could be started from holds the first block of a new chain. -/
theorem keeps_restore (h : (s.restore c).result = .ok ()) :
    (s.restore c).chain = .start ∧ (s.restore c).store.Keeps Chain.start.blocks := by
  rw [restore_of_empty hempty] at h ⊢
  have hwritten : (s.write Block.genesis).result = .ok () := by
    cases hwrite : s.write Block.genesis with
    | mk t result =>
        cases result with
        | ok _ => rfl
        | error e =>
            simp only [Chain.start, Chain.blocks_ofBlocks, writeAll, hwrite] at h
            cases h
  exact ⟨rfl, (writeAll_start hempty (room_of_write (by decide) hwritten)).2⟩

end

end BlockStore

end WorkLedger
