import Mathlib.Data.List.Nodup
import WorkLedger.Block.Basic
import WorkLedger.Proofs.Decimal.Written
import WorkLedger.Proofs.Text.Separator

/-!
# What the hash of a block determines

The text that a block is hashed as determines the header of the block: the index
stands before the first colon, and of what follows, everything but the hash of
the block before is free of colons, so that hash may be any text. The digest of
the transactions is determined along with the header, the transactions are not.

Where no two of the hashed texts have the same digest, blocks with the same hash
have the same header.
-/

namespace WorkLedger

namespace Hex

theorem colon_not_mem_chars (bytes : List UInt8) : ':' ∉ chars bytes := by
  have hdigit : ∀ n : Fin 16, digit n ≠ ':' := by decide
  induction bytes with
  | nil => simp [chars]
  | cons b rest ih =>
      intro hmem
      rw [chars, List.mem_cons, List.mem_cons] at hmem
      rcases hmem with hhigh | hlow | hrest
      · exact hdigit _ hhigh.symm
      · exact hdigit _ hlow.symm
      · exact ih hrest

end Hex

theorem Sha256.colon_not_mem_hexOfText (text : String) :
    ':' ∉ (hexOfText text).toList := by
  rw [hexOfText, Hex.encode, String.toList_ofList]
  exact Hex.colon_not_mem_chars _

namespace Block

/-- The texts that are hashed for a block: the payload of its transactions and
its header. -/
def hashedTexts (b : Block) : List String :=
  [payloadsText b.transactions, b.headerText b.nonce b.digest]

/-- No two different texts among those hashed for some blocks have the same
digest. -/
def CollisionFree (bs : List Block) : Prop :=
  ∀ s ∈ bs.flatMap hashedTexts, ∀ t ∈ bs.flatMap hashedTexts,
    Sha256.hexOfText s = Sha256.hexOfText t → s = t

/-- Two blocks have the same header. -/
structure SameHeader (b d : Block) : Prop where
  index : b.index = d.index
  previousHash : b.previousHash = d.previousHash
  timestamp : b.timestamp = d.timestamp
  difficulty : b.difficulty = d.difficulty
  nonce : b.nonce = d.nonce
  digest : b.digest = d.digest

theorem sameHeader_of_headerText {b d : Block}
    (h : b.headerText b.nonce b.digest = d.headerText d.nonce d.digest) :
    SameHeader b d := by
  have hchars : b.headerChars b.nonce b.digest = d.headerChars d.nonce d.digest :=
    String.ofList_inj.mp h
  have hdigit : ∀ n, ':' ∉ Decimal.natChars n := Decimal.colon_not_mem_natChars
  have hhex : ∀ x : Block, ':' ∉ x.digest.toList := fun x =>
    Sha256.colon_not_mem_hexOfText _
  unfold headerChars at hchars
  obtain ⟨hindex, hrest⟩ := Separator.eq_of_first (hdigit _) (hdigit _) hchars
  -- The previous hash may contain colons, so the other fields are split off from the end.
  simp only [← List.cons_append, ← List.append_assoc] at hrest
  obtain ⟨hrest, hdigest⟩ := Separator.eq_of_last (hhex b) (hhex d) hrest
  obtain ⟨hrest, hnonce⟩ := Separator.eq_of_last (hdigit _) (hdigit _) hrest
  obtain ⟨hrest, hdifficulty⟩ := Separator.eq_of_last (hdigit _) (hdigit _) hrest
  obtain ⟨hprevious, htimestamp⟩ := Separator.eq_of_last (hdigit _) (hdigit _) hrest
  exact ⟨Decimal.eq_of_wordChars hindex, String.toList_injective hprevious,
    Decimal.eq_of_wordChars htimestamp,
    UInt32.toNat_inj.mp (Decimal.natChars_injective hdifficulty),
    Decimal.eq_of_wordChars hnonce, String.toList_injective hdigest⟩

theorem mem_hashedTexts {bs : List Block} {b : Block} (hb : b ∈ bs) :
    b.headerText b.nonce b.digest ∈ bs.flatMap hashedTexts := by
  rw [List.mem_flatMap]
  exact ⟨b, hb, by simp [hashedTexts]⟩

/-- Where no two texts collide, blocks with the same hash have the same header. -/
theorem CollisionFree.sameHeader {bs : List Block} (hfree : CollisionFree bs) {b d : Block}
    (hb : b ∈ bs) (hd : d ∈ bs) (hbhash : b.hash = b.contentHash)
    (hdhash : d.hash = d.contentHash) (h : b.hash = d.hash) : SameHeader b d := by
  have hcontent : b.contentHash = d.contentHash := by rw [← hbhash, ← hdhash, h]
  apply sameHeader_of_headerText
  exact hfree _ (mem_hashedTexts hb) _ (mem_hashedTexts hd) hcontent

/-- Blocks do not collide if the digests of their transactions and their hashes differ. -/
theorem collisionFree_of_nodup (payloads : List (List Transaction)) {bs : List Block}
    (hhash : ∀ b ∈ bs, b.hash = b.contentHash) (hpayloads : ∀ b ∈ bs, b.transactions ∈ payloads)
    (hnodup : (payloads.map digestOf ++ bs.map Block.hash).Nodup) : CollisionFree bs := by
  have hdigests : ((payloads.map payloadsText ++ bs.map fun b => b.headerText b.nonce b.digest).map
      Sha256.hexOfText).Nodup := by
    have hheaders : bs.map Block.hash =
        bs.map fun b => Sha256.hexOfText (b.headerText b.nonce b.digest) :=
      List.map_congr_left hhash
    rw [hheaders] at hnodup
    rw [List.map_append, List.map_map, List.map_map]
    exact hnodup
  have htexts : ∀ s ∈ bs.flatMap hashedTexts,
      s ∈ payloads.map payloadsText ++ bs.map fun b => b.headerText b.nonce b.digest := by
    intro s hs
    obtain ⟨b, hb, hs⟩ := List.mem_flatMap.mp hs
    rcases List.mem_cons.mp hs with rfl | hheader
    · exact List.mem_append_left _ (List.mem_map_of_mem (hpayloads b hb))
    · rw [List.mem_singleton.mp hheader]
      exact List.mem_append_right _ (List.mem_map.mpr ⟨b, hb, rfl⟩)
  exact fun s hs t ht hst => List.inj_on_of_nodup_map hdigests (htexts s hs) (htexts t ht) hst

theorem CollisionFree.of_subset {bs ds : List Block} (h : CollisionFree ds) (hsub : bs ⊆ ds) :
    CollisionFree bs := by
  have htexts : bs.flatMap hashedTexts ⊆ ds.flatMap hashedTexts := by
    intro s hs
    obtain ⟨b, hb, hs⟩ := List.mem_flatMap.mp hs
    exact List.mem_flatMap.mpr ⟨b, hsub hb, hs⟩
  intro s hs t ht
  exact h s (htexts hs) t (htexts ht)

end Block

end WorkLedger
