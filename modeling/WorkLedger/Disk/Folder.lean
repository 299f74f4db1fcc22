import WorkLedger.Disk.Content

/-!
# Folders

A folder is a list of names in their order, each once, with what stands under them. A trail is a list
of names that leads from a folder to what is somewhere below it.
-/

namespace WorkLedger

/-- Why a file or a folder cannot be had. -/
inductive DiskError where
  | notFound
  | notAFolder
  | isAFolder
  | alreadyExists
  | nameTooLong
  /-- The name holds a character that no name may hold. -/
  | badName
  /-- The file holds no text. -/
  | notText
  deriving DecidableEq, Repr

/-- The text of a disk error. -/
def DiskError.message : DiskError → String
  | notFound => "there is no such file or folder"
  | notAFolder => "not a folder"
  | isAFolder => "this is a folder"
  | alreadyExists => "there is a file of this name"
  | nameTooLong => "the name is too long"
  | badName => "there can be no such name"
  | notText => "the file holds no text"

/-- What stands under a name. -/
inductive Entry where
  | file (content : Content)
  | folder (entries : List (String × Entry))

/-- The entries of a folder. -/
abbrev Folder := List (String × Entry)

namespace Folder

/-- What stands under a name. -/
def get? (name : String) : Folder → Option Entry
  | [] => none
  | (n, e) :: rest => if n = name then some e else get? name rest

/-- Puts an entry under a name, in place of the one that is there. -/
def put (name : String) (e : Entry) : Folder → Folder
  | [] => [(name, e)]
  | (n, old) :: rest =>
    if name < n then (name, e) :: (n, old) :: rest
    else if n = name then (name, e) :: rest
    else (n, old) :: put name e rest

/-- Takes a name out. -/
def erase (name : String) (f : Folder) : Folder := f.filter fun entry => entry.1 != name

/-- The names in a folder. -/
def names (f : Folder) : List String := f.map Prod.fst

/-- Makes the folders of a trail where they are missing, and puts an entry at its end. -/
def plant (f : Folder) : List String → Entry → Folder
  | [], _ => f
  | [name], e => f.put name e
  | name :: trail, e =>
    let inner : Folder :=
      match f.get? name with
      | some (.folder entries) => entries
      | _ => []
    f.put name (.folder (inner.plant trail e))

@[simp] theorem get?_nil (name : String) : get? name [] = none := rfl

@[simp] theorem get?_put_self (name : String) (e : Entry) (f : Folder) :
    get? name (put name e f) = some e := by
  induction f with
  | nil => simp [put, get?]
  | cons entry rest ih =>
    simp only [put]
    split
    · simp [get?]
    · split
      · simp [get?]
      · next hne => simp [get?, hne, ih]

end Folder

namespace Entry

/-- The names in an entry, if it is a folder. -/
def names : Entry → List String
  | file _ => []
  | folder entries => Folder.names entries

/-- What stands at the end of a trail from an entry. -/
def find : Entry → List String → Except DiskError Entry
  | e, [] => .ok e
  | file _, _ :: _ => .error .notAFolder
  | folder entries, name :: trail =>
    match Folder.get? name entries with
    | some e => e.find trail
    | none => .error .notFound

/-- The text of an entry, if it is a file that holds one. -/
def text : Entry → Except DiskError String
  | file content =>
    match content.text? with
    | some s => .ok s
    | none => .error .notText
  | folder _ => .error .isAFolder

end Entry

end WorkLedger
