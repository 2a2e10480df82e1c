import SqlLint.Command.Router
import SqlLint.Protocol.Method
import SqlLint.Server.Formatting
import SqlLint.Server.Linting

/-! # Commands of a session -/
namespace SqlLint.Server

/-- What stands in the way of a page being shown. -/
def shown (answer : Json) : Except String Unit :=
  if (answer.get? "success") == some (.bool true) then .ok () else .error ""

/-- Why edits were not applied. -/
def applied (answer : Json) : Except String Unit :=
  if (answer.get? "applied") == some (.bool true) then .ok ()
  else .error (((answer.get? "failureReason").bind Json.string?).getD "")

/-- Asks the editor for something that it may decline. -/
def askFor (r : EditorRequest) (shape : Shape) (taken : Json → Except String Unit)
    (failed declined : String → String) : CommandM Handler Unit := do
  match ← (Handler.ask r : Handler _) with
  | .error e => throw (.host (failed e.text))
  | .ok answer =>
    match (shape .plain answer).map taken with
    | .error f => throw (.host (failed (RpcError.unreadable f.message).text))
    | .ok (.error reason) => throw (.host (declined reason))
    | .ok (.ok ()) => pure ()

def parseUri (text : String) : CommandM Handler Uri :=
  match Uri.parse? text with
  | some uri => pure uri
  | none => throw (.host ("invalid document URI: " ++ text))

def onLinter {α : Type} (what : String) (r : Except LinterError α) : CommandM Handler α :=
  match r with
  | .ok a => pure a
  | .error e => throw (.host (what ++ " failed: " ++ e.message))

def openPage (url : String) : CommandM Handler Unit := do
  let _ ← parseUri url
  askFor (.showDocument url) Protocol.showDocumentResult shown
    (fun detail => "Failed to open " ++ url ++ ": " ++ detail) fun _ => "Client could not open " ++ url

def fixDocument (text : String) : CommandM Handler Unit := do
  let uri ← parseUri text
  match ← onLinter "Fixing" (← (fixEdits uri : Handler _)) with
  | none => pure ()
  | some edits =>
    askFor (.applyEdit uri.text edits) Protocol.applyEditResult applied
      (fun detail => "Failed to apply fixes: " ++ detail) fun reason => "Client rejected fixes: " ++ reason

def workbench : Workbench Handler where
  activeDocument := return (← Handler.server).active
  openPage := openPage
  lintDocument text := do
    let uri ← parseUri text
    onLinter "Linting" (← (lintDocument uri : Handler _))
  lintProject := do
    match (← Handler.server).root with
    | none => throw (.host "No workspace folder is open")
    | some root => onLinter "Linting" (← (lintProject root : Handler _))
  fixDocument := fixDocument

/-- Adds a rule to a list of the session's settings files. -/
def exclude (scope : Scope) (rule : String) : CommandM Handler (List String) := fun _ session =>
  let (r, tree) := (((settingsFiles session.server).store.exclude scope rule).run).run session.tree
  (r.mapError .settings, { session with tree := tree })

/-- A command that is not understood is the editor's fault, any other failure is ours. -/
def rpcError (e : CommandError) : RpcError :=
  match e with
  | .unknownCommand _ | .invalidArguments .. => ⟨-32602, e.message, none⟩
  | _ => ⟨-32603, e.message, none⟩

def Command.excludes : Command → Bool
  | .excludeRule .. => true
  | _ => false

/-- Runs a command; after an exclusion all open documents are linted again. -/
def executeCommand (name : String) (arguments : List Json) :
    Handler (Except RpcError (Option (List String))) := do
  match Command.parse name arguments with
  | .error e => return .error (rpcError e)
  | .ok command =>
    match ← (workbench.dispatch exclude command).run with
    | .ok answer =>
      if Command.excludes command then lintOpenDocuments
      return .ok answer
    | .error e =>
      Handler.log .error ("Command " ++ name ++ " failed: " ++ e.message)
      return .error (rpcError e)

end SqlLint.Server
