import WorkLedger.Json.Printer
import WorkLedger.Text.Blank

/-!
# Requests and replies

Both can be written in one line of text.
-/

namespace WorkLedger.Http

/-- A request. -/
structure Request where
  method : String
  target : String
  contentType : Option String
  body : String

namespace Request

/-- The characters before the first blank, and those after it. -/
def cutAtBlank (cs : List Char) : List Char × List Char :=
  (cs.takeWhile (· != ' '), (cs.dropWhile (· != ' ')).drop 1)

/-- The request that a line writes: the method, the target, and a JSON body if one follows. -/
def ofLine (line : String) : Request :=
  let (method, rest) := cutAtBlank (Text.trimChars line.toList)
  let (target, body) := cutAtBlank rest
  { method := String.ofList method
    target := String.ofList target
    contentType := if body.isEmpty then none else some "application/json"
    body := String.ofList body }

end Request

/-- A reply: its status code, and its body if that is JSON. All other bodies are without interest. -/
structure Reply where
  status : Nat
  body : Option String
  deriving DecidableEq, Repr

namespace Reply

/-- A reply that carries a value. -/
def json (status : Nat) (j : Json) : Reply := ⟨status, some j.compact⟩

/-- A reply that carries no value. -/
def bare (status : Nat) : Reply := ⟨status, none⟩

/-- A reply that says what is wrong. -/
def failure (status : Nat) (text : String) : Reply := json status (.object [("error", .string text)])

/-- The reply to a request that asks only for the head of it. -/
def headOnly (r : Reply) : Reply := { r with body := r.body.map fun _ => "" }

/-- The line that writes a reply. -/
def line (r : Reply) : String := Decimal.natText r.status ++ " " ++ r.body.getD ""

end Reply

end WorkLedger.Http
