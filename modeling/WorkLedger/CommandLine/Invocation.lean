import WorkLedger.CommandLine.Help
import WorkLedger.Disk.Path

/-!
# Invocations

An invocation is a command with its options. The settings file may be named in front of the command
and behind it; the second one counts.
-/

namespace WorkLedger.CommandLine

/-- The options of the command that runs a node. -/
structure RunOptions where
  userPort : Option UInt16
  peerPort : Option UInt16
  folder : Option Path
  mine : Bool
  peers : List String
  deriving DecidableEq, Repr

/-- What is to be done. -/
inductive Command where
  /-- Run a node. -/
  | run (options : RunOptions)
  /-- Make a new key. -/
  | keygen
  /-- Show the address of a private key. -/
  | address (privateKey : String)
  deriving DecidableEq, Repr

/-- A command, and the file with the settings. -/
structure Invocation where
  config : Option Path
  command : Command
  deriving DecidableEq, Repr

/-- The values of an option, in the order in which they were given. -/
def Given.values (g : Given) (k : Key) : List String :=
  (g.filter fun given => given.1 == k).reverse.map Prod.snd

/-- The value of an option that is given at most once. -/
def Given.value? (g : Given) (k : Key) : Option String := (g.values k).head?

/-- The options of the command that runs a node. -/
def RunOptions.ofGiven (g : Given) : RunOptions :=
  { userPort := (g.value? .userPort).bind portNumber?
    peerPort := (g.value? .peerPort).bind portNumber?
    folder := (g.value? .folder).map Path.mk
    mine := (g.value? .mine).isSome
    peers := g.values .peer }

/-- The commands by name. -/
def commandLevel? (name : String) : Option Level :=
  if name = "run" then some .run
  else if name = "keygen" then some .keygen
  else if name = "address" then some .address
  else none

/-- The command of a level with its options and operands. -/
def command? (level : Level) (r : Reading) : Option Command :=
  match level, r.operands with
  | .run, [] => some (.run (.ofGiven r.given))
  | .keygen, [] => some .keygen
  | .address, [privateKey] => some (.address privateKey)
  | _, _ => none

/-- Why a command line leads to no invocation. -/
inductive Ending where
  | help (topic : Topic)
  | version
  | invalid
  deriving DecidableEq, Repr

/-- How reading ends that stops among the words of a level. -/
def Stop.ending (level : Level) : Stop → Ending
  | .help => .help level.topic
  | .version => .version
  | .invalid => .invalid

/-- How the command for help ends: it takes the name of one command, or none. -/
def helpOn : List String → Ending
  | [] => .help .program
  | ["help"] => .help .help
  | [name] =>
    match commandLevel? name with
    | some level => .help level.topic
    | none => .invalid
  | _ => .invalid

/-- Reads a command line. -/
def invocation (words : List String) : Except Ending Invocation :=
  match read .top words [] none [] with
  | .error stop => .error (stop.ending .top)
  | .ok front =>
    match front.operands with
    | ["help"] => .error (helpOn front.rest)
    | [name] =>
      match commandLevel? name with
      | none => .error .invalid
      | some level =>
        match read level front.rest [] none [] with
        | .error stop => .error (stop.ending level)
        | .ok back =>
          match settle front.given front.pending, command? level back with
          | .ok given, some command =>
            .ok ⟨((back.given.value? .config).or (given.value? .config)).map Path.mk, command⟩
          | _, _ => .error .invalid
    | _ => .error .invalid

end WorkLedger.CommandLine
