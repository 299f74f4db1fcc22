import WorkLedger.Decimal.Numeral

/-!
# The grammar of the command line

A command line is a list of words. Words that start with a hyphen are options, up to a word of two
hyphens alone; the others are operands. The first operand names a command, and what follows it
belongs to the command. Options that take a value find it behind an equals sign, behind the letter of
a short option, or in the next word.

Reading stops at the first thing that is wrong, and at the first request for help. A value in a word
of its own is looked at only when the next option comes or the words of its level end.
-/

namespace WorkLedger.CommandLine

/-- The options. -/
inductive Key where
  | config
  | userPort
  | peerPort
  | folder
  | mine
  | peer
  | help
  | version
  deriving DecidableEq, Repr

/-- Where an option may stand. -/
inductive Level where
  /-- Before the command. -/
  | top
  | run
  | keygen
  | address
  deriving DecidableEq, Repr

/-- Why there is nothing to do. -/
inductive Stop where
  | help
  | version
  | invalid
  deriving DecidableEq, Repr

/-- The options that were given, with their values, last one first. -/
abbrev Given := List (Key × String)

namespace Key

/-- Whether an option takes a value. -/
def takesValue : Key → Bool
  | mine | help | version => false
  | _ => true

/-- The option of a long name. -/
def ofLong? (level : Level) (name : String) : Option Key :=
  if name = "config" then some config
  else if name = "help" then some help
  else
    match level with
    | .top => if name = "version" then some version else none
    | .run =>
      if name = "rest-port" then some userPort
      else if name = "ws-port" then some peerPort
      else if name = "data-dir" then some folder
      else if name = "mine" then some mine
      else if name = "peer" then some peer
      else none
    | _ => none

/-- The option of a letter. -/
def ofShort? (level : Level) (letter : Char) : Option Key :=
  if letter = 'c' then some config
  else if letter = 'h' then some help
  else
    match level with
    | .top => if letter = 'V' then some version else none
    | .run =>
      if letter = 'd' then some folder
      else if letter = 'p' then some peer
      else none
    | _ => none

end Key

/-- The number of a TCP port, which may have a sign. -/
def portNumber? (text : String) : Option UInt16 :=
  let (negative, digits) :=
    match text.toList with
    | '-' :: rest => (true, rest)
    | '+' :: rest => (false, rest)
    | cs => (false, cs)
  if digits.isEmpty then none
  else
    match (digits.mapM Digit.ofChar?).map Radix.value with
    | some n => if n < UInt16.size ∧ (negative = false ∨ n = 0) then some (UInt16.ofNat n) else none
    | none => none

/-- Whether an option may have a value. -/
def Key.accepts (k : Key) (value : String) : Bool :=
  match k with
  | config | folder => !value.isEmpty
  | userPort | peerPort => (portNumber? value).isSome
  | _ => true

/-- Takes an option with its value. Only the option for a peer may be given twice. -/
def give (g : Given) (k : Key) (value : String) : Except Stop Given :=
  match k with
  | .help => .error .help
  | .version => .error .version
  | _ =>
    if k.accepts value && (k == .peer || g.all fun given => given.1 != k) then .ok ((k, value) :: g)
    else .error .invalid

/-- Whether a word is read as options. -/
def isOption (word : String) : Bool := word.toList.head? == some '-' && word != "-"

/-- An option that still needs its value, or the options that were read. -/
abbrev Step := Except Stop (Given × Option Key)

/-- Reads a long option, the part after its two hyphens. -/
def readLong (level : Level) (g : Given) (cs : List Char) : Step :=
  let name := String.ofList (cs.takeWhile (· != '='))
  match Key.ofLong? level name with
  | none => .error .invalid
  | some k =>
    match cs.dropWhile (· != '='), k.takesValue with
    | [], true => .ok (g, some k)
    | _ :: value, true => (give g k (String.ofList value)).map fun g => (g, none)
    | [], false => (give g k "").map fun g => (g, none)
    | _ :: _, false => .error .invalid

/-- Reads the letters after one hyphen. -/
def readShort (level : Level) (g : Given) : List Char → Step
  | [] => .ok (g, none)
  | letter :: rest =>
    match Key.ofShort? level letter with
    | none => .error .invalid
    | some k =>
      if k.takesValue then
        match rest with
        | [] => .ok (g, some k)
        | '=' :: value => (give g k (String.ofList value)).map fun g => (g, none)
        | value => (give g k (String.ofList value)).map fun g => (g, none)
      else
        match give g k "" with
        | .ok g => readShort level g rest
        | .error stop => .error stop

/-- Reads a word of options. -/
def readOption (level : Level) (g : Given) (word : String) : Step :=
  match word.toList with
  | '-' :: '-' :: cs => readLong level g cs
  | '-' :: cs => readShort level g cs
  | _ => .error .invalid

/-- An option with a value from a word of its own, which is not taken yet. -/
abbrev Pending := Option (Key × String)

/-- Takes the option that waits, if one does. -/
def settle (g : Given) : Pending → Except Stop Given
  | none => .ok g
  | some (k, value) => give g k value

/-- What was read of the words of a level: its options and its operands. In front of the command,
reading ends with the first operand, and `rest` is what follows that. The option that stands last
there is still `pending` then: what follows is read before its value is looked at. -/
structure Reading where
  given : Given
  pending : Pending
  operands : List String
  rest : List String

/-- Reads the words of a level. An option that waits is taken when the next one comes, at an operand
of the level, or at the end. -/
def read (level : Level) : List String → Given → Pending → List String → Except Stop Reading
  | [], g, pending, operands =>
    match settle g pending with
    | .error stop => .error stop
    | .ok g => .ok ⟨g, none, operands, []⟩
  | word :: words, g, pending, operands =>
    if word = "--" then
      if level = .top ∧ words ≠ [] then .error .invalid
      else
        match settle g pending with
        | .error stop => .error stop
        | .ok g => .ok ⟨g, none, operands ++ words, []⟩
    else if isOption word then
      match settle g pending with
      | .error stop => .error stop
      | .ok g =>
        match readOption level g word with
        | .error stop => .error stop
        | .ok (g, none) => read level words g none operands
        | .ok (g, some k) =>
          match words with
          | [] => .error .invalid
          | value :: words =>
            if isOption value then .error .invalid
            else read level words g (some (k, value)) operands
    else if level = .top then .ok ⟨g, pending, [word], words⟩
    else if level = .address ∧ operands = [] then
      match settle g pending with
      | .error stop => .error stop
      | .ok g => read level words g none [word]
    else .error .invalid

end WorkLedger.CommandLine
