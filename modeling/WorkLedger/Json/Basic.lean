import WorkLedger.Amount
import WorkLedger.Decimal.Scaling

/-!
# JSON documents

A document is a tree of values. A text that is not JSON gives a tree as well, with a `broken` leaf
where it goes wrong: whoever reads the tree meets the faults of a text in the order of the text, and
may pass over a part that does not matter.
-/

namespace WorkLedger

/-- What is wrong with a part of a text. -/
inductive Flaw where
  /-- The text stops being JSON here. -/
  | grammar
  /-- A string that is not Unicode text, because of a surrogate without its partner. -/
  | surrogate
  /-- A member whose name is not Unicode text; its value follows as a member of its own. -/
  | name
  deriving DecidableEq, Repr

/-- A JSON value, as far as it could be read. -/
inductive Json where
  | null
  | bool (b : Bool)
  | number (n : Numeral)
  | string (s : String)
  | array (items : List Json)
  | object (members : List (String × Json))
  | broken (flaw : Flaw)
  deriving Repr

namespace Json

/-- A natural number as a JSON value. -/
def nat (n : Nat) : Json := .number (.ofNat n)

/-- An amount as a JSON value; one that is not finite has no numeral and is null. -/
def amount (x : Float) : Json :=
  match Amount.numeral? x with
  | some n => .number n
  | none => .null

/-- A value that may be absent, null if it is. -/
def optional {α : Type} (f : α → Json) : Option α → Json
  | some a => f a
  | none => .null

/-- The members of a record: those whose value is present. -/
def present (members : List (String × Option Json)) : Json :=
  .object (members.filterMap fun (name, value) => value.map fun j => (name, j))

mutual

/-- Whether a value that nobody reads may stand where it stands: it has to be JSON, but its strings
need not be Unicode text. -/
def isIgnorable : Json → Bool
  | array items => areIgnorable items
  | object members => areMembersIgnorable members
  | broken .grammar => false
  | _ => true

/-- Whether all of some values are ignorable. -/
def areIgnorable : List Json → Bool
  | [] => true
  | j :: rest => j.isIgnorable && areIgnorable rest

/-- Whether the values of all of some members are ignorable. -/
def areMembersIgnorable : List (String × Json) → Bool
  | [] => true
  | (_, j) :: rest => j.isIgnorable && areMembersIgnorable rest

end

mutual

/-- Whether a value is free of flaws and of numbers too large for a float, and its arrays and objects
are nested at most `depth` deep. -/
def isPlain : Nat → Json → Bool
  | _, number n => n.toFloat.isFinite
  | 0, array _ => false
  | 0, object _ => false
  | depth + 1, array items => arePlain depth items
  | depth + 1, object members => areMembersPlain depth members
  | _, broken _ => false
  | _, _ => true

/-- Whether all of some values are plain. -/
def arePlain : Nat → List Json → Bool
  | _, [] => true
  | depth, j :: rest => isPlain depth j && arePlain depth rest

/-- Whether the values of all of some members are plain. -/
def areMembersPlain : Nat → List (String × Json) → Bool
  | _, [] => true
  | depth, (_, j) :: rest => isPlain depth j && areMembersPlain depth rest

end

end Json

end WorkLedger
