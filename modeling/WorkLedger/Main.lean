import WorkLedger.CommandLine.Program
import WorkLedger.Http.Api

/-!
# The outer layer

Here the program meets the machine: its arguments, its files, the clock and random bytes. Requests of
users come in as lines of the standard input, and replies go out as lines. While the node mines, one
round of mining follows each request. Connections to peers cannot be opened from here.
-/

namespace WorkLedger.Outer

/-- The time in milliseconds since the beginning of 1970, read off a file that is made now. -/
def now : IO UInt64 := do
  let (_, path) ← IO.FS.createTempFile
  let facts ← path.metadata
  IO.FS.removeFile path
  return UInt64.ofNat (facts.modified.sec.toNat * 1000 + facts.modified.nsec.toNat / 1000000)

/-- Draws until random bytes make a key. -/
partial def draw : IO Program.Draw := do
  let minerId ← IO.getRandomBytes 8
  let secret ← IO.getRandomBytes 32
  match Program.Draw.ofBytes? minerId.data.toList secret.data.toList with
  | some d => return d
  | none => draw

/-- A disk with nothing on it but the folder one works in. -/
def emptyDisk : IO Disk := do
  let here := ((← IO.currentDir).toString.splitOn "/").filter fun name => name != ""
  return ⟨Folder.plant [] here (.folder []), here⟩

/-- Puts a file of the machine on a disk. A file that cannot be read stays out. -/
def fetchFile (d : Disk) (path : Path) : IO Disk := do
  try
    let bytes ← IO.FS.readBinFile path.text
    return d.supply path (Content.ofBytes bytes.data.toList)
  catch _ => return d

/-- The files in a folder of the machine, or nothing if it is none. -/
def listFolder (path : String) : IO (Option Folder) := do
  try
    let entries ← (← IO.FS.realPath path).readDir
    let files ← entries.toList.filterMapM fun entry => do
      if ← entry.path.isDir then return none
      let bytes ← IO.FS.readBinFile entry.path
      return some (entry.fileName, Entry.file (Content.ofBytes bytes.data.toList))
    return some (files.foldl (fun f (name, e) => Folder.put name e f) [])
  catch _ => return none

/-- Puts the settings, the list of peers and the stored blocks on a disk. -/
def fetch (config : Option Path) (o : CommandLine.RunOptions) : IO (Disk × String) := do
  let d ← emptyDisk
  let d ← match config with
    | some path => fetchFile d path
    | none => pure d
  match Program.settings d config with
  | .error _ => return (d, "")
  | .ok found =>
    let s := Program.withOptions found o
    let d ← match s.peersFile with
      | some path => fetchFile d path
      | none => pure d
    let path := Program.blocksPath s
    match ← listFolder path.text, d.makeFolders path with
    | some files, ⟨made, .ok trail⟩ => return (made.plant trail (.folder files), path.text)
    | _, _ => return (d, path.text)

/-- Makes a folder of the machine hold the files of a store. -/
def keep (path : String) (store : BlockStore) : IO Unit := do
  match store.entries with
  | .error _ => return ()
  | .ok files =>
    IO.FS.createDirAll path
    let old := ((← listFolder path).map Folder.names).getD []
    for name in old do
      if (files.get? name).isNone then IO.FS.removeFile (path ++ "/" ++ name)
    for (name, e) in files do
      match e with
      | .file (.text s) => IO.FS.writeFile (path ++ "/" ++ name) s
      | _ => pure ()

/-- No connection can be opened. -/
def dial : Node.Dialer := fun _ => some "there is no network"

/-- Answers the requests of users until one of them stops the node or no more come. -/
partial def serve (path : String) (n : Node) : IO Unit := do
  keep path n.store
  let line ← (← IO.getStdin).getLine
  if n.stopRequested || line.isEmpty then keep path n.shutdown.store
  else
    match Http.respond n dial (Http.Request.ofLine line) with
    | .error d =>
      IO.eprintln d.message
      serve path n
    | .ok (reply, m) =>
      IO.println reply.line
      if m.stopRequested then keep path m.shutdown.store
      else if m.isMining then serve path (m.mineRound (← now))
      else serve path m

/-- Runs a node. -/
def run (config : Option Path) (o : CommandLine.RunOptions) (d : Program.Draw) : IO UInt32 := do
  let (disk, path) ← fetch config o
  match (Program.prepare disk config o d dial).result with
  | .error e =>
    IO.eprintln ("Error: " ++ e.message)
    return 1
  | .ok ready =>
    serve path ready.node
    return 0

end WorkLedger.Outer

/-- The program. -/
def main (args : List String) : IO UInt32 := do
  let d ← WorkLedger.Outer.draw
  match WorkLedger.Program.action args d with
  | .finish code output =>
    IO.print output
    if code = 2 then IO.eprintln "For more information, try '--help'."
    return UInt32.ofNat code
  | .fail e =>
    IO.eprintln ("Error: " ++ e.message)
    return 1
  | .run config options => WorkLedger.Outer.run config options d
