import WorkLedger.CommandLine.Grammar

/-!
# Help

Every command has a page of help, and so have the program itself and the command for help. The
options of a page stand in the order in which they were declared, those of all commands first.
-/

namespace WorkLedger.CommandLine

/-- What a page of help is about. -/
inductive Topic where
  | program
  | run
  | keygen
  | address
  | help
  deriving DecidableEq, Repr

/-- The topic of a level. -/
def Level.topic : Level → Topic
  | .top => .program
  | .run => .run
  | .keygen => .keygen
  | .address => .address

namespace Topic

/-- What a topic is, in a sentence. -/
def about : Topic → String
  | program => "A minimal proof-of-work cryptocurrency node"
  | run => "Start the node"
  | keygen => "Generate a new key pair"
  | address => "Print the address of a private key"
  | help => "Print this message or the help of the given subcommand(s)"

/-- How a topic is written on the command line. -/
def usage : Topic → String
  | program => "ashchain [OPTIONS] <COMMAND>"
  | run => "ashchain run [OPTIONS]"
  | keygen => "ashchain keygen [OPTIONS]"
  | address => "ashchain address [OPTIONS] <PRIVATE_KEY>"
  | help => "ashchain help [COMMAND]..."

/-- The lists on a page of help, each with its title and its lines. -/
def lists : Topic → List (String × List String)
  | program =>
    [("Commands", ["run      " ++ run.about, "keygen   " ++ keygen.about,
        "address  " ++ address.about, "help     " ++ help.about]),
      ("Options", ["-c, --config <CONFIG>  Settings file (JSON)", "-h, --help             Print help",
        "-V, --version          Print version"])]
  | run =>
    [("Options", ["-c, --config <CONFIG>        Settings file (JSON)",
        "    --rest-port <REST_PORT>  REST API port",
        "    --ws-port <WS_PORT>      WebSocket peer port",
        "-d, --data-dir <DATA_DIR>    Data directory for blockchain storage",
        "    --mine                   Start mining immediately",
        "-p, --peer <PEERS>           Peer to connect to on start (repeatable)",
        "-h, --help                   Print help"])]
  | keygen =>
    [("Options", ["-c, --config <CONFIG>  Settings file (JSON)", "-h, --help             Print help"])]
  | address =>
    [("Arguments", ["<PRIVATE_KEY>  Private key (hex)"]),
      ("Options", ["-c, --config <CONFIG>  Settings file (JSON)", "-h, --help             Print help"])]
  | help => [("Arguments", ["[COMMAND]...  Print help for the subcommand(s)"])]

/-- A list under its title. -/
def listText (title : String) (lines : List String) : String :=
  "\n" ++ title ++ ":\n" ++ String.join (lines.map fun line => "  " ++ line ++ "\n")

/-- The page of help on a topic. -/
def page (t : Topic) : String :=
  t.about ++ "\n\nUsage: " ++ t.usage ++ "\n"
    ++ String.join (t.lists.map fun (title, lines) => listText title lines)

end Topic

end WorkLedger.CommandLine
