import SqlLint.CommandLine
import SqlLint.Server.Rpc

/-! # The program

All that is read and written goes through a tree of the settings files. No program is started from
here, so that the linter counts as missing, and the editor counts as doing what it is asked for. -/
namespace SqlLint.Program

def placeOf (here : List String) (path : String) : List String :=
  (if Path.isAbsolute path then [] else here) ++
    (Path.names path).filter fun name => name ≠ "" && name ≠ "."

def pathOf (place : List String) : String := "/" ++ "/".intercalate place

/-- Adds a file as it is now. -/
def look (t : Tree) (path : String) : IO Tree := do
  let place := placeOf t.here path
  try
    let bytes ← IO.FS.readBinFile (pathOf place)
    return t.add place (.file (Content.ofBytes bytes.toList))
  catch
    | .noFileOrDirectory .. => return t
    | .permissionDenied .. => return t.add place (.file (.text "") .hidden)
    | _ => return t.add place (.directory)

def bytesOf : Content → ByteArray
  | .text s => s.toUTF8
  | .binary bytes => ⟨bytes.toArray⟩

/-- Writes the files that have changed. -/
def save (old new : Tree) : IO Unit :=
  new.nodes.forM fun (place, node) =>
    match node with
    | .file content .. =>
      if old.node? place = some node then pure () else do
        IO.FS.createDirAll (pathOf place.dropLast)
        IO.FS.writeBinFile (pathOf place) (bytesOf content)
    | .directory _ => pure ()

def treeAt (paths : List String) : IO Tree := do
  let here := placeOf [] (toString (← IO.currentDir))
  paths.foldlM look (Tree.empty here)

def environment : Environment := ⟨fun r => .ok r.granted, ⟨[], fun _ => {}⟩⟩

/-- The settings files before and after a message: it may name the workspace. -/
def settingsPaths (session : Session) (received : Rpc.Incoming) : List String :=
  let (_, after) := (Rpc.receive received environment).run session
  Server.settingsPaths session.server ++ Server.settingsPaths after.server

/-- Reads lines up to an empty one and answers the length that they announce. -/
partial def readLength (input : IO.FS.Stream) (known : Option Nat) : IO (Option Nat) := do
  let line ← input.getLine
  if line.isEmpty then return none
  else if line = "\r\n" || line = "\n" then return known
  else readLength input (Rpc.contentLength? line <|> known)

partial def readBytes (input : IO.FS.Stream) (count : Nat) (read : ByteArray) : IO ByteArray := do
  if count ≤ read.size then return read
  let more ← input.read (count - read.size).toUSize
  if more.isEmpty then return read else readBytes input count (read ++ more)

def write (output : IO.FS.Stream) (bodies : List Json) : IO Unit := do
  for body in bodies do
    output.putStr (Rpc.frame body)
  output.flush

/-- Takes bodies until the session or the input ends, or one of them is no message. -/
partial def serve (input output : IO.FS.Stream) (session : Session) : IO Unit := do
  if session.server.phase = .exited then return
  match ← readLength input none with
  | none => return
  | some count =>
    let bytes ← readBytes input count .empty
    match (Utf8.text? bytes.toList).bind Json.parse? with
    | none => write output [Rpc.unreadable]
    | some body =>
      match Rpc.incoming? body with
      | none => write output [Rpc.invalid]
      | some received =>
        let tree ← treeAt (settingsPaths session received)
        let (bodies, after) := (Rpc.receive received environment).run { session with tree := tree }
        save tree after.tree
        write output bodies
        serve input output after

def run (request : CommandLine.Request) : IO UInt32 := do
  let vars : CommandLine.Variables := ⟨← IO.getEnv "XDG_CONFIG_HOME", ← IO.getEnv "HOME"⟩
  let globalFile := CommandLine.globalFile vars request
  let here := toString (← IO.currentDir)
  match request.action with
  | .serve =>
    let tree ← treeAt globalFile.toList
    serve (← IO.getStdin) (← IO.getStdout) ⟨{ globalFile := globalFile }, tree, []⟩
    return 0
  | .showDocumentation _ =>
    let (outcome, _) := (CommandLine.perform vars here request).run (Tree.empty [])
    IO.print outcome.stdout
    return outcome.exit.toUInt32
  | .excludeRule _ inWorkspace root =>
    let files := CommandLine.excludeFiles vars request here inWorkspace root
    let tree ← treeAt (files.global.toList ++ files.workspace.toList)
    let (outcome, after) := (CommandLine.perform vars here request).run tree
    save tree after
    IO.print outcome.stdout
    return outcome.exit.toUInt32

end SqlLint.Program

def main (arguments : List String) : IO UInt32 :=
  match SqlLint.CommandLine.parse arguments with
  | .ok request => SqlLint.Program.run request
  | .error e => return e.exit.toUInt32
