import WorkLedger.CommandLine.Invocation
import WorkLedger.Disk.Walk
import WorkLedger.Node.Conversation
import WorkLedger.Settings

/-!
# The program

The program works in a folder of a disk. It prints an address or a new key, or it prepares a node from the
settings, the options and the stored chain, which the outer layer then serves.
-/

namespace WorkLedger

/-- Why the program fails. -/
inductive ProgramError where
  | unreadable (path : Path) (cause : DiskError)
  | badSettings
  | badKey (cause : KeyError)
  | store (cause : StoreError)
  | peers (cause : PeerError)
  /-- The port for users is the one for peers. -/
  | portTaken (port : UInt16)

/-- The text of a program error. -/
def ProgramError.message : ProgramError → String
  | unreadable path cause => "Cannot read " ++ path.text ++ ": " ++ cause.message
  | badSettings => "Invalid settings file"
  | badKey cause => cause.message
  | store cause => cause.message
  | peers cause => cause.message
  | portTaken port => "Port " ++ Decimal.natText port.toNat ++ " is in use"

namespace Program

/-- The name and the number of the program's version. -/
def versionText : String := "ashchain 0.1.0\n"

/-- What the program draws at random where nothing is set. -/
structure Draw where
  minerId : String
  key : KeyPair

/-- A draw out of random bytes; not all bytes make a key. -/
def Draw.ofBytes? (minerId secret : List UInt8) : Option Draw :=
  (KeyPair.secretOfBytes? secret).map fun n => ⟨Hex.encode minerId, KeyPair.ofSecret n⟩

/-- A key in three lines. -/
def keyText (k : KeyPair) : String :=
  "Private key: " ++ k.privateHex ++ "\nPublic key:  " ++ k.publicHex ++ "\nAddress:     "
    ++ k.address ++ "\n"

/-- The text of a file. -/
def readFile (d : Disk) (path : Path) : Except ProgramError String :=
  match d.text path with
  | .ok text => .ok text
  | .error cause => .error (.unreadable path cause)

/-- The settings in a file, or the default ones if no file is named. -/
def settings (d : Disk) : Option Path → Except ProgramError Settings
  | none => .ok Settings.default
  | some path =>
    match readFile d path with
    | .error e => .error e
    | .ok text =>
      match Settings.ofText text with
      | .ok s => .ok s
      | .error _ => .error .badSettings

/-- The peers that the settings name. -/
def listedPeers (d : Disk) (s : Settings) : Except ProgramError (List String) :=
  match s.peersFile with
  | none => .ok []
  | some path => (readFile d path).map peerAddresses

/-- The settings with the options of the command line. -/
def withOptions (s : Settings) (o : CommandLine.RunOptions) : Settings :=
  { s with
    userPort := o.userPort.getD s.userPort
    peerPort := o.peerPort.getD s.peerPort
    folder := o.folder.getD s.folder
    autostart := s.autostart || o.mine }

/-- How a node is set up. -/
def nodeConfig (s : Settings) (bootstrap : List String) (draw : Draw) : NodeConfig :=
  { initialDifficulty := s.difficulty
    allowReset := s.allowReset
    minerId := s.minerId.getD draw.minerId
    rewardAddress := s.rewardAddress.getD draw.key.address
    bootstrap }

/-- The path of the stored blocks. -/
def blocksPath (s : Settings) : Path := s.folder.under "blocks"

/-- A node that is ready to be served, and its settings. -/
structure Prepared where
  settings : Settings
  node : Node

/-- What came of preparing a node: the disk afterwards, and the node. -/
structure Preparation where
  disk : Disk
  result : Except ProgramError Prepared

/-- The disk with a store at the end of a trail. -/
def withStore (d : Disk) (trail : List String) (store : BlockStore) : Disk :=
  match store.place with
  | some e => d.plant trail e
  | none => d

/-- Starts a node on the store at the end of a trail, and mining if that is set. The port for users
is taken after the one for peers, so they have to differ; zero stands for any port. -/
def startNode (d : Disk) (trail : List String) (s : Settings) (config : NodeConfig)
    (store : BlockStore) (dial : Node.Dialer) : Preparation :=
  match Node.create config store with
  | .error failure => ⟨withStore d trail failure.store, .error (.store failure.cause)⟩
  | .ok n =>
    match n.start dial with
    | .error e => ⟨withStore d trail n.store, .error (.peers e)⟩
    | .ok n =>
      let n := if s.autostart then n.startMining.2 else n
      ⟨withStore d trail n.store,
        if s.userPort = s.peerPort ∧ s.userPort ≠ 0 then .error (.portTaken s.userPort)
        else .ok ⟨s, n⟩⟩

/-- Prepares a node. -/
def prepare (d : Disk) (config : Option Path) (o : CommandLine.RunOptions) (draw : Draw)
    (dial : Node.Dialer) : Preparation :=
  match settings d config with
  | .error e => ⟨d, .error e⟩
  | .ok found =>
    let s := withOptions found o
    match listedPeers d s with
    | .error e => ⟨d, .error e⟩
    | .ok listed =>
      match d.makeFolders (blocksPath s) with
      | ⟨d, .error cause⟩ => ⟨d, .error (.store (.disk cause))⟩
      | ⟨d, .ok trail⟩ =>
        let store := { place := (d.entry trail).toOption, room := (blocksPath s).room }
        startNode d trail s (nodeConfig s (listed ++ o.peers) draw) store dial

/-- What the program does first. -/
inductive Action where
  /-- Print a text and end, with an exit code. -/
  | finish (code : Nat) (output : String)
  /-- Say on the error channel what is wrong and end with exit code one. -/
  | fail (e : ProgramError)
  /-- Prepare a node. -/
  | run (config : Option Path) (options : CommandLine.RunOptions)

/-- What a command line leads to. -/
def action (words : List String) (draw : Draw) : Action :=
  match CommandLine.invocation words with
  | .error (.help topic) => .finish 0 topic.page
  | .error .version => .finish 0 versionText
  | .error .invalid => .finish 2 ""
  | .ok ⟨config, .run options⟩ => .run config options
  | .ok ⟨_, .keygen⟩ => .finish 0 (keyText draw.key)
  | .ok ⟨_, .address privateKey⟩ =>
    match KeyPair.ofHex privateKey with
    | .ok key => .finish 0 (key.address ++ "\n")
    | .error cause => .fail (.badKey cause)

end Program

end WorkLedger
