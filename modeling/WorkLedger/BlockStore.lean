import WorkLedger.Block.Json
import WorkLedger.Chain.Basic
import WorkLedger.Disk.Folder
import WorkLedger.Disk.Path
import WorkLedger.Json.Printer

/-!
# The store of blocks

Every block is kept in a file of its own, in one folder. The names of the files hold the index of
the block, filled up with zeros, so that their order is that of the blocks. A block is written to a
draft first, which then takes the place of the block's file.

Each operation on the store tells what the store is afterwards, also if it fails.
-/

namespace WorkLedger

/-- Why the store cannot do something. -/
inductive StoreError where
  | disk (cause : DiskError)
  /-- The file of a block holds none. -/
  | noBlock
  /-- The first stored block is not the first block of a chain. -/
  | startsAt (index : UInt64)
  /-- The stored blocks do not follow one another. -/
  | brokenChain
  deriving DecidableEq, Repr

/-- The text of a store error. -/
def StoreError.message : StoreError → String
  | disk cause => "IO error: " ++ cause.message
  | noBlock => "Serialization error: the file holds no block"
  | startsAt index => "Invalid data: stored chain starts at block " ++ Decimal.natText index.toNat
  | brokenChain => "Invalid data: stored chain failed validation"

/-- A store. -/
structure BlockStore where
  /-- What stands at the place of its folder. -/
  place : Option Entry
  /-- The most bytes that the name of a file in its folder may have. -/
  room : Nat := Path.longestName

/-- What came of an operation on a store. -/
structure Stored where
  store : BlockStore
  result : Except StoreError Unit

namespace BlockStore

/-- Whether a file of this name can be in the folder. -/
def admits (s : BlockStore) (name : String) : Bool := decide (name.utf8ByteSize ≤ s.room)

/-- The name of a block's file without the dot and what follows it. -/
def stem (index : UInt64) : String := "block-" ++ Decimal.paddedText 10 index.toNat

/-- The name of a block's file. -/
def fileName (index : UInt64) : String := stem index ++ ".json"

/-- The name of a block's draft. -/
def draftName (index : UInt64) : String := stem index ++ ".tmp"

/-- Whether a file of this name is taken for that of a block. -/
def isFileName (name : String) : Bool :=
  "block-".toList.isPrefixOf name.toList && ".json".toList.isSuffixOf name.toList

/-- Opens a store; its folder is made if nothing is in its place. -/
def opened (s : BlockStore) : Stored :=
  match s.place with
  | none => ⟨{ s with place := some (.folder []) }, .ok ()⟩
  | some (.folder _) => ⟨s, .ok ()⟩
  | some (.file _) => ⟨s, .error (.disk .alreadyExists)⟩

/-- The entries of the folder. -/
def entries (s : BlockStore) : Except StoreError Folder :=
  match s.place with
  | none => .error (.disk .notFound)
  | some (.file _) => .error (.disk .notAFolder)
  | some (.folder entries) => .ok entries

/-- The block in a file. -/
def readBlock : Entry → Except StoreError Block
  | .file content =>
    match Block.decoder.whole content.document with
    | .ok b => .ok b
    | .error _ => .error .noBlock
  | .folder _ => .error .noBlock

/-- The blocks in the files of a folder, by name. -/
def readBlocks (s : BlockStore) (f : Folder) : Except StoreError (List Block) :=
  (f.filter fun entry => isFileName entry.1).mapM fun entry =>
    if s.admits entry.1 then readBlock entry.2 else .error (.disk .nameTooLong)

/-- The stored blocks. -/
def load (s : BlockStore) : Except StoreError (List Block) := s.entries.bind s.readBlocks

/-- The store with these entries in its folder. -/
def holding (s : BlockStore) (f : Folder) : BlockStore := { s with place := some (.folder f) }

/-- Puts a draft in the place of a block's file. -/
def settle (s : BlockStore) (f : Folder) (index : UInt64) (draft : Entry) : Stored :=
  if !s.admits (fileName index) then ⟨s.holding f, .error (.disk .nameTooLong)⟩
  else
    match f.get? (fileName index) with
    | some (.folder _) => ⟨s.holding f, .error (.disk .isAFolder)⟩
    | _ => ⟨s.holding ((f.erase (draftName index)).put (fileName index) draft), .ok ()⟩

/-- Writes a block. -/
def write (s : BlockStore) (b : Block) : Stored :=
  if !s.admits (draftName b.index) then ⟨s, .error (.disk .nameTooLong)⟩
  else
    match s.entries with
    | .error e => ⟨s, .error e⟩
    | .ok f =>
      match f.get? (draftName b.index) with
      | some (.folder _) => ⟨s, .error (.disk .isAFolder)⟩
      | _ =>
        let draft := Entry.file (.text b.toJson.pretty)
        s.settle (f.put (draftName b.index) draft) b.index draft

/-- Writes blocks up to the first one that cannot be written. -/
def writeAll (s : BlockStore) : List Block → Stored
  | [] => ⟨s, .ok ()⟩
  | b :: rest =>
    match s.write b with
    | ⟨t, .ok _⟩ => t.writeAll rest
    | failed => failed

/-- Writes blocks, passing over those that cannot be written. -/
def writeEach (s : BlockStore) (blocks : List Block) : BlockStore :=
  blocks.foldl (fun s b => (s.write b).store) s

/-- Forgets all blocks. -/
def reset (s : BlockStore) : Stored :=
  match s.place with
  | some (.file _) => ⟨s, .error (.disk .notAFolder)⟩
  | _ => ⟨s.holding [], .ok ()⟩

/-- Forgets all blocks and writes others. -/
def refill (s : BlockStore) (blocks : List Block) : Stored :=
  match s.reset with
  | ⟨t, .ok _⟩ => t.writeAll blocks
  | failed => failed

/-- Why stored blocks are no chain, if they are none. They have to follow one another from the index
zero on. -/
def objection? : List Block → Option StoreError
  | [] => none
  | b :: rest =>
    if b.index != 0 then some (.startsAt b.index)
    else if Block.isSequence (b :: rest) then none
    else some .brokenChain

/-- What came of starting from a store: the store, the chain, and whether it could be had. -/
structure Restored where
  store : BlockStore
  chain : Chain
  result : Except StoreError Unit

/-- Replaces a chain by the stored one. If nothing is stored the chain starts anew, and its first
block is written. -/
def restore (s : BlockStore) (c : Chain) : Restored :=
  match s.load with
  | .error e => ⟨s, c, .error e⟩
  | .ok [] =>
    let stored := s.writeAll Chain.start.blocks
    ⟨stored.store, Chain.start, stored.result⟩
  | .ok (b :: rest) =>
    match objection? (b :: rest) with
    | some e => ⟨s, c, .error e⟩
    | none => ⟨s, Chain.ofBlocks (b :: rest), .ok ()⟩

end BlockStore

end WorkLedger
