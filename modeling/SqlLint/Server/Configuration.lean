import SqlLint.Protocol.Shape
import SqlLint.Server.State

/-! # Settings and providers of a session -/
namespace SqlLint.Server

/-- The layers of the settings files, and the faults of those that are left out. -/
def fileLayers (t : Tree) (paths : List String) : List Layer × List SettingsError :=
  let read := paths.map (Layer.ofFile t)
  (read.filterMap Except.toOption, read.filterMap fun
    | .ok _ => none
    | .error e => some e)

def settingsPaths (s : Server) : List String :=
  s.globalFile.toList ++ (s.root.map Settings.workspacePath).toList

/-- The settings in force: the files, then what the editor sent. The linter runs in the workspace
unless it is told otherwise. -/
def settings (s : Server) (t : Tree) : Settings :=
  let resolved := Settings.resolve ((fileLayers t (settingsPaths s)).1 ++ [s.client])
  { resolved with workingDirectory := resolved.workingDirectory <|> s.root }

def loadSettings : Handler Settings := do
  let session ← get
  for e in (fileLayers session.tree (settingsPaths session.server)).2 do
    Handler.log .warning ("Failed to load settings: " ++ e.message)
  return settings session.server session.tree

/-- Takes settings from the editor in place of those that it sent before; faulty ones change
nothing. -/
def configure (sent : Json) : Handler Unit :=
  match Layer.ofJson sent with
  | .ok layer => Handler.modifyServer fun s => { s with client := layer }
  | .error f => Handler.log .warning ("Ignoring invalid client settings: " ++ f.message)

def settingsFiles (s : Server) : SettingsFiles := ⟨s.globalFile, s.root.map Settings.workspacePath⟩

/-- Tells the editor which providers are gone and which are new. Where it refuses the new ones,
only those that it had before are kept. -/
def syncProviders : Handler Unit := do
  if (← Handler.server).dynamic then
    let wanted := Provider.wanted (← loadSettings)
    let current := (← Handler.server).registered
    let stale := current.filter (· ∉ wanted)
    let missing := wanted.filter (· ∉ current)
    unless stale.isEmpty do
      let _ ← Handler.ask (.unregister stale)
    let refused ← if missing.isEmpty then pure none else do
      match ← Handler.ask (.register missing) with
      | .ok answer =>
        match Shape.nothing .plain answer with
        | .ok _ => pure none
        | .error f => pure (some (.unreadable f.message))
      | .error e => pure (some e)
    match refused with
    | some (e : RpcError) =>
      Handler.log .error ("Failed to register providers: " ++ e.text)
      Handler.modifyServer fun s => { s with registered := current.filter (· ∈ wanted) }
    | none => Handler.modifyServer fun s => { s with registered := wanted }

/-- Takes back all providers. -/
def releaseProviders : Handler Unit := do
  let providers := (← Handler.server).registered
  Handler.modifyServer fun s => { s with registered := [] }
  unless providers.isEmpty do
    let _ ← Handler.ask (.unregister providers)

end SqlLint.Server
