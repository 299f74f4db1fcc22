import WorkLedger.Disk.Content
import WorkLedger.Disk.Path
import WorkLedger.Json.Printer
import WorkLedger.Text.Blank

/-!
# Settings

Settings are read from a JSON object with a section for each part of a node. Whatever is left out has
a default, so an empty object is complete. The addresses of other nodes are listed in a text of
their own, one in a line.
-/

namespace WorkLedger

/-- The settings of a node. -/
structure Settings where
  /-- The difficulty of the first mined block. -/
  difficulty : UInt32
  /-- Whether a chain with another first block may be taken over. -/
  allowReset : Bool
  /-- The folder of the stored chain. -/
  folder : Path
  /-- The TCP port of the interface for users. -/
  userPort : UInt16
  /-- The TCP port of the interface for peers. -/
  peerPort : UInt16
  /-- The file that lists peers. -/
  peersFile : Option Path
  /-- Whether mining starts with the node. -/
  autostart : Bool
  /-- The name in mined blocks; a random one if there is none. -/
  minerId : Option String
  /-- Who receives the rewards; the owner of a fresh key if it is nobody. -/
  rewardAddress : Option String
  deriving DecidableEq, Repr

namespace Settings

/-- What holds where nothing is set. -/
def default : Settings :=
  { difficulty := 5
    allowReset := false
    folder := ⟨".ashchain"⟩
    userPort := 8080
    peerPort := 8181
    peersFile := none
    autostart := false
    minerId := none
    rewardAddress := none }

/-- The settings as a JSON value. -/
def toJson (s : Settings) : Json :=
  .object [
    ("chain", .object [("difficulty", .nat s.difficulty.toNat),
      ("reset", .object [("enable", .bool s.allowReset)])]),
    ("database", .object [("folder", .string s.folder.text)]),
    ("rest", .object [("port", .nat s.userPort.toNat)]),
    ("websocket", .object [("port", .nat s.peerPort.toNat)]),
    ("peers", .object [("file", .optional (fun p => .string p.text) s.peersFile)]),
    ("mining", .object [("autostart", .bool s.autostart),
      ("minerId", .optional .string s.minerId), ("address", .optional .string s.rewardAddress)])]

/-- A path. -/
def path : Decoder Path := fun j => (Decoder.text j).map Path.mk

/-- A section with a single field. -/
def section? {α : Type} (name : String) (d : Decoder α) (absent : α) : Decoder α :=
  ((Record.ofConstructor id).field name d (some absent)).decoder

/-- The section about the chain. -/
def chainSection : Decoder (UInt32 × Bool) :=
  (Record.ofConstructor Prod.mk
    |>.field "difficulty" Decoder.word32 (some default.difficulty)
    |>.field "reset" (section? "enable" Decoder.flag default.allowReset)
      (some default.allowReset)).decoder

/-- The section about mining. -/
def miningSection : Decoder (Bool × Option String × Option String) :=
  (Record.ofConstructor (fun autostart minerId address => (autostart, minerId, address))
    |>.field "autostart" Decoder.flag (some default.autostart)
    |>.optional "minerId" Decoder.text
    |>.optional "address" Decoder.text).decoder

/-- Settings out of a JSON value. -/
def decoder : Decoder Settings :=
  (Record.ofConstructor
      (fun (chain : UInt32 × Bool) folder userPort peerPort peersFile
          (mining : Bool × Option String × Option String) =>
        Settings.mk chain.1 chain.2 folder userPort peerPort peersFile mining.1 mining.2.1
          mining.2.2)
    |>.field "chain" chainSection (some (default.difficulty, default.allowReset))
    |>.field "database" (section? "folder" path default.folder) (some default.folder)
    |>.field "rest" (section? "port" Decoder.word16 default.userPort) (some default.userPort)
    |>.field "websocket" (section? "port" Decoder.word16 default.peerPort) (some default.peerPort)
    |>.field "peers" (section? "file" (Decoder.nullable path) default.peersFile)
      (some default.peersFile)
    |>.field "mining" miningSection
      (some (default.autostart, default.minerId, default.rewardAddress))).decoder

/-- Whether two settings are the same, up to the way in which their paths are written. -/
def same (s t : Settings) : Bool :=
  { s with folder := t.folder, peersFile := t.peersFile } == t && s.folder.same t.folder
    && (match s.peersFile, t.peersFile with
      | none, none => true
      | some p, some q => p.same q
      | _, _ => false)

/-- The settings in a text. -/
def ofText (text : String) : Except Fault Settings := decoder.read text

end Settings

/-- The addresses in a list of peers: its lines without the blanks around them, except for empty ones
and those that start with a number sign. -/
def peerAddresses (text : String) : List String :=
  ((Text.lines text).map Text.trim).filter fun line =>
    !line.isEmpty && line.toList.head? != some '#'

end WorkLedger
