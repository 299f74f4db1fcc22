import WorkLedger.Disk.Folder
import WorkLedger.Disk.Path

/-!
# Walking a disk

A disk is a folder with all that is in it, and the folder in it that one works in. Paths are followed
step by step, each step from a folder that is there, and where one is missing it can be made.
-/

namespace WorkLedger

/-- A disk, and the names along the way from its root to the folder one works in. -/
structure Disk where
  root : Folder
  here : List String

/-- Why no disk has anything at a path. -/
def Path.fault? (p : Path) : Option DiskError :=
  if p.text = "" then some .notFound
  else if p.text.toList.contains '\x00' then some .badName
  else if Path.longest < p.text.utf8ByteSize then some .nameTooLong
  else none

namespace Disk

/-- What stands at the end of a trail of names from the root. -/
def entry (d : Disk) (trail : List String) : Except DiskError Entry :=
  (Entry.folder d.root).find trail

/-- The disk with an entry at the end of a trail. -/
def plant (d : Disk) (trail : List String) (e : Entry) : Disk :=
  { d with root := d.root.plant trail e }

/-- The trail that a path starts from. -/
def start (d : Disk) (p : Path) : List String := if p.isAbsolute then [] else d.here

/-- Follows steps from a trail. -/
def follow (d : Disk) : List String → List Path.Step → Except DiskError (List String)
  | trail, [] => .ok trail
  | trail, step :: rest =>
    match d.entry trail with
    | .error e => .error e
    | .ok (.file _) => .error .notAFolder
    | .ok (.folder f) =>
      match step with
      | .stay => follow d trail rest
      | .up => follow d trail.dropLast rest
      | .name name =>
        if Path.longestName < name.utf8ByteSize then .error .nameTooLong
        else if (Folder.get? name f).isSome then follow d (trail ++ [name]) rest
        else .error .notFound

/-- The trail of what stands at a path. -/
def locate (d : Disk) (p : Path) : Except DiskError (List String) :=
  match p.fault? with
  | some e => .error e
  | none => d.follow (d.start p) p.steps

/-- What stands at a path. -/
def find (d : Disk) (p : Path) : Except DiskError Entry := (d.locate p).bind d.entry

/-- The text in the file at a path. -/
def text (d : Disk) (p : Path) : Except DiskError String := (d.find p).bind Entry.text

/-- What came of making folders: the disk, and the trail of the last one. -/
structure Made where
  disk : Disk
  result : Except DiskError (List String)

/-- Follows steps from a trail and makes the folders that are missing. What was made stays if a later
step fails. -/
def extend (d : Disk) : List String → List Path.Step → Made
  | trail, [] =>
    match d.entry trail with
    | .ok (.folder _) => ⟨d, .ok trail⟩
    | .ok (.file _) => ⟨d, .error .alreadyExists⟩
    | .error e => ⟨d, .error e⟩
  | trail, step :: rest =>
    match d.entry trail with
    | .error e => ⟨d, .error e⟩
    | .ok (.file _) => ⟨d, .error .notAFolder⟩
    | .ok (.folder f) =>
      match step with
      | .stay => extend d trail rest
      | .up => extend d trail.dropLast rest
      | .name name =>
        if Path.longestName < name.utf8ByteSize then ⟨d, .error .nameTooLong⟩
        else
          let deeper := trail ++ [name]
          if (Folder.get? name f).isSome then extend d deeper rest
          else extend (d.plant deeper (.folder [])) deeper rest

/-- Makes the folders along a path. -/
def makeFolders (d : Disk) (p : Path) : Made :=
  match p.fault? with
  | some e => ⟨d, .error e⟩
  | none => d.extend (d.start p) p.steps

/-- Puts a file at a path and makes the folders on the way. Where no file can be, nothing is put. -/
def supply (d : Disk) (p : Path) (content : Content) : Disk :=
  match p.steps.reverse with
  | .name name :: front =>
    match d.extend (d.start p) front.reverse with
    | ⟨made, .ok trail⟩ =>
      match made.entry (trail ++ [name]) with
      | .ok (.folder _) => made
      | _ => made.plant (trail ++ [name]) (.file content)
    | ⟨made, .error _⟩ => made
  | _ => d

end Disk

end WorkLedger
