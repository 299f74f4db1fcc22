import WorkLedger.Json.Parser

/-!
# Reading values out of JSON

A decoder takes a value of some type out of a document. It fails with the first fault that it
meets in the order of the text: the text is malformed there, or what stands there has the wrong
shape.

A record is read from an object or from an array. In an object its fields come in any order, each at
most once, and other members are passed over. In an array they come in the order of the record, and
nothing may follow the last.
-/

namespace WorkLedger

/-- Why a document is refused. -/
inductive Fault where
  | malformed
  | mismatched
  deriving DecidableEq, Repr

/-- A way to take a value out of a document. -/
abbrev Decoder (α : Type) := Json → Except Fault α

namespace Json

/-- The fault of a value that has the wrong type. A number too large for a float is malformed
wherever it stands. -/
def fault : Json → Fault
  | broken _ => .malformed
  | number n => if n.toFloat.isFinite then .mismatched else .malformed
  | _ => .mismatched

end Json

namespace Decoder

/-- A text. -/
def text : Decoder String
  | .string s => .ok s
  | j => .error j.fault

/-- A truth value. -/
def flag : Decoder Bool
  | .bool b => .ok b
  | j => .error j.fault

/-- A natural number below a bound, written without sign, point and exponent. -/
def below (bound : Nat) : Decoder Nat
  | .number n =>
    match n.toNat? with
    | some v => if v < bound then .ok v else .error (Json.number n).fault
    | none => .error (Json.number n).fault
  | j => .error j.fault

/-- A word of 64 bits. -/
def word64 : Decoder UInt64 := fun j => (below UInt64.size j).map UInt64.ofNat

/-- A word of 32 bits. -/
def word32 : Decoder UInt32 := fun j => (below UInt32.size j).map UInt32.ofNat

/-- A word of 16 bits. -/
def word16 : Decoder UInt16 := fun j => (below UInt16.size j).map UInt16.ofNat

/-- A finite amount. -/
def amount : Decoder Float
  | .number n => if n.toFloat.isFinite then .ok n.toFloat else .error .malformed
  | j => .error j.fault

/-- A value or null. -/
def nullable {α : Type} (d : Decoder α) : Decoder (Option α)
  | .null => .ok none
  | j => (d j).map some

/-- Any value that is free of flaws and nested at most `depth` deep. -/
def plain (depth : Nat) : Decoder Json := fun j =>
  if j.isPlain depth then .ok j else .error .malformed

/-- A list of values. -/
def list {α : Type} (d : Decoder α) : Decoder (List α)
  | .array items => items.mapM d
  | j => .error j.fault

/-- A whole document: nothing but blanks may follow its value. -/
def whole {α : Type} (d : Decoder α) (document : Json.Document) : Except Fault α :=
  match d document.root with
  | .ok a => if document.complete then .ok a else .error .malformed
  | .error f => .error f

/-- A whole text. -/
def read {α : Type} (d : Decoder α) (text : String) : Except Fault α := d.whole (Json.ofText text)

end Decoder

/-- How a record is read: the fields that were met so far are a `State`. -/
structure Record (α : Type) where
  State : Type
  start : State
  names : List String
  /-- Takes the value of a field. -/
  put : String → Json → State → Except Fault State
  /-- The record, when no more fields follow. -/
  finish : State → Except Fault α

namespace Record

/-- A record without fields. -/
def ofConstructor {α : Type} (a : α) : Record α where
  State := Unit
  start := ()
  names := []
  put _ _ s := .ok s
  finish _ := .ok a

/-- One more field. If it is absent it has a default, or the record is refused. -/
def field {α β : Type} (r : Record (β → α)) (name : String) (d : Decoder β)
    (absent : Option β) : Record α where
  State := r.State × Option β
  start := (r.start, none)
  names := r.names ++ [name]
  put n j s :=
    if n = name then
      match s.2 with
      | some _ => .error .mismatched
      | none => (d j).map fun b => (s.1, some b)
    else (r.put n j s.1).map fun t => (t, s.2)
  finish s :=
    match r.finish s.1 with
    | .error f => .error f
    | .ok make =>
      match s.2.or absent with
      | some b => .ok (make b)
      | none => .error .mismatched

/-- One more field that has to be present. -/
def required {α β : Type} (r : Record (β → α)) (name : String) (d : Decoder β) : Record α :=
  r.field name d none

/-- One more field that is read as null when it is absent. -/
def optional {α β : Type} (r : Record (Option β → α)) (name : String) (d : Decoder β) : Record α :=
  r.field name (Decoder.nullable d) (some none)

/-- Takes one member of an object. -/
def member {α : Type} (r : Record α) (s : r.State) (m : String × Json) : Except Fault r.State :=
  if m.1 ∈ r.names then r.put m.1 m.2 s
  else
    match m.2 with
    | .broken .name => .error .malformed
    | j => if j.isIgnorable then .ok s else .error .malformed

/-- Takes the items of an array for the given fields. -/
def items {α : Type} (r : Record α) : List String → List Json → r.State → Except Fault r.State
  | _, [], s => .ok s
  | [], _ :: _, _ => .error .malformed
  | name :: names, j :: rest, s =>
    match r.put name j s with
    | .ok t => items r names rest t
    | .error f => .error f

/-- Reads a record from an object or from an array. -/
def decoder {α : Type} (r : Record α) : Decoder α
  | .object members => (members.foldlM r.member r.start).bind r.finish
  | .array js => (r.items r.names js r.start).bind r.finish
  | j => .error j.fault

end Record

end WorkLedger
