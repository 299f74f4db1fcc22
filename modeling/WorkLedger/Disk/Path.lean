/-!
# Paths

A path is a text of words between slashes. It leads from the root of the disk, if a slash stands in
front, or else from the folder one works in. A word is the name of what comes next; two points go
back to the folder around the one that was reached, and a point or an empty word stays there.
-/

namespace WorkLedger

/-- A path, as it is written. -/
structure Path where
  text : String
  deriving DecidableEq, Repr

namespace Path

/-- Where a word of a path leads. -/
inductive Step where
  /-- It stays in the folder. -/
  | stay
  /-- It goes to the folder around it. -/
  | up
  /-- It goes to what has this name in the folder. -/
  | name (name : String)
  deriving DecidableEq, Repr

/-- The step of a word. -/
def Step.ofWord (word : String) : Step :=
  if word = "" ∨ word = "." then .stay
  else if word = ".." then .up
  else .name word

/-- The words of a path between its slashes. -/
def words (p : Path) : List String := p.text.splitOn "/"

/-- The steps of a path. -/
def steps (p : Path) : List Step := p.words.map Step.ofWord

/-- Whether a path leads from the root. -/
def isAbsolute (p : Path) : Bool := p.text.toList.head? == some '/'

/-- What a path is told apart by: its steps without those that stay, except for a point at its very
beginning. -/
def components (p : Path) : List Step :=
  let moves := p.steps.filter fun step => step != .stay
  if p.words.head? = some "." then .stay :: moves else moves

/-- Whether two paths have the same components. -/
def same (p q : Path) : Bool := p.isAbsolute == q.isAbsolute && p.components == q.components

/-- The path of a name in the folder of a path. -/
def under (p : Path) (name : String) : Path :=
  if p.text = "" ∨ p.text.toList.getLast? = some '/' then ⟨p.text ++ name⟩
  else ⟨p.text ++ "/" ++ name⟩

/-- The most bytes that a path may have. -/
def longest : Nat := 4095

/-- The most bytes that a name on a path may have. -/
def longestName : Nat := 255

/-- The most bytes that a name in the folder of a path may have. -/
def room (p : Path) : Nat := min longestName (longest - (p.text.utf8ByteSize + 1))

end Path

end WorkLedger
