import WorkLedger.Json.Decoder
import WorkLedger.Json.Stray

/-!
# What files hold

Nearly every file holds a text. One that does not holds bytes which are the text of nothing.
-/

namespace WorkLedger

/-- What a file holds. -/
inductive Content where
  | text (s : String)
  /-- Bytes that are no text. -/
  | binary (bytes : List UInt8)
  deriving Repr

namespace Content

/-- The content of a file with the given bytes. -/
def ofBytes (bytes : List UInt8) : Content :=
  match Utf8.text? bytes with
  | some s => text s
  | none => binary bytes

/-- The text of a file, if it holds one. -/
def text? : Content → Option String
  | text s => some s
  | binary _ => none

/-- A file as a document. -/
def document : Content → Json.Document
  | text s => Json.ofText s
  | binary bytes => Json.ofBytes bytes

@[simp] theorem text?_text (s : String) : (text s).text? = some s := rfl

end Content

end WorkLedger
