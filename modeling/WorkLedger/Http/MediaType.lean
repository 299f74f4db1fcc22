/-!
# Media types

A media type has a name, a subtype and parameters, as in `text/plain; charset=utf-8`. A subtype may
say after a plus sign which format it builds on.
-/

namespace WorkLedger.Http

/-- Whether a character may stand in a name. -/
def isTokenChar (c : Char) : Bool :=
  c.isAlphanum || c ∈ "!#$%&'*+-.^_`|~".toList

/-- Whether a character may stand in a quoted value. -/
def isQuotedChar (c : Char) : Bool := ' ' ≤ c && c ≤ '~'

/-- What follows a quoted value, given what follows its opening quote. A value has at least one
character; the first may be a quote itself, and the next quote ends the value. -/
def afterQuoted? : List Char → Option (List Char)
  | [] => none
  | c :: cs =>
    if !isQuotedChar c then none
    else
      match cs.dropWhile fun d => d != '"' && isQuotedChar d with
      | '"' :: after => some after
      | _ => none

/-- Whether what follows a subtype consists of parameters: each after a semicolon, with a name and a
plain or a quoted value. Blanks may stand before a name and after a quoted value, and the last
semicolon may be followed by nothing. -/
def areParameters : Nat → List Char → Bool
  | _, [] => true
  | 0, _ :: _ => false
  | fuel + 1, c :: rest =>
    if c != ';' then false
    else
      let cs := rest.dropWhile (· == ' ')
      if cs.isEmpty then true
      else
        let name := cs.takeWhile isTokenChar
        match cs.dropWhile isTokenChar with
        | '=' :: '"' :: value =>
          match afterQuoted? value with
          | some after => !name.isEmpty && areParameters fuel (after.dropWhile (· == ' '))
          | none => false
        | '=' :: value =>
          !name.isEmpty && (value.head?.all isTokenChar)
            && areParameters fuel (value.dropWhile isTokenChar)
        | _ => false

/-- A name and a subtype. The subtype is cut in two at its last plus sign. -/
structure MediaType where
  name : String
  subtype : String
  suffix : Option String
  deriving DecidableEq, Repr

/-- Cuts a list at the last plus sign that is not its first character. -/
def cutSuffix (cs : List Char) : List Char × Option (List Char) :=
  let tail := (cs.drop 1).reverse.takeWhile (· != '+')
  if tail.length < (cs.drop 1).length then
    (cs.take (cs.length - tail.length - 1), some tail.reverse)
  else (cs, none)

/-- The media type that a text names, in lower case. -/
def mediaType? (text : String) : Option MediaType :=
  let cs := text.toList.map Char.toLower
  let name := cs.takeWhile isTokenChar
  match cs.dropWhile isTokenChar with
  | '/' :: rest =>
    let subtype := rest.takeWhile isTokenChar
    if name.isEmpty || subtype.isEmpty || !areParameters cs.length (rest.dropWhile isTokenChar) then
      none
    else
      let (base, suffix) := cutSuffix subtype
      some ⟨String.ofList name, String.ofList base, suffix.map String.ofList⟩
  | _ => none

/-- Whether a media type is that of JSON, or of something that builds on JSON. -/
def MediaType.isJson (m : MediaType) : Bool :=
  m.name == "application" && (m.subtype == "json" || m.suffix == some "json")

end WorkLedger.Http
