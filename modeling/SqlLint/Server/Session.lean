import SqlLint.Server.CodeAction
import SqlLint.Server.Commands
import SqlLint.Server.Documents
import SqlLint.Server.Hover

/-! # Sessions

A session waits for the editor's first request, is starting until that one is answered, then runs
until it is told to stop, and ends with a last notification. Requests out of turn are refused and
notifications out of turn are ignored. -/
namespace SqlLint

/-- What the editor says of itself when a session starts. -/
structure StartParams where
  folders : List Uri
  root : Option Uri
  options : Option Json
  dynamic : Bool

inductive Request
  | start (params : StartParams)
  | stop
  | formatting (uri : Uri)
  | hover (uri : Uri) (position : Position)
  | codeAction (uri : Uri) (diagnostics : List SentDiagnostic)
  | executeCommand (name : String) (arguments : List Json)

inductive Notification
  | started
  | opened (uri : Uri) (language : String) (text : List Char)
  | changed (uri : Uri) (changes : List Change)
  | saved (uri : Uri) (text : Option (List Char))
  | closed (uri : Uri)
  | configured (settings : Json)
  | stop
  | exit

namespace Server

def syncOptions : Json :=
  .mk [("openClose", .bool true), ("change", .nat 2), ("save", .mk [("includeText", .bool true)])]

def announcement : ProviderKind → String × Json
  | .formatting => ("documentFormattingProvider", .bool true)
  | .hover => ("hoverProvider", .bool true)
  | .codeAction => ("codeActionProvider", .mk [("codeActionKinds", .strings ["quickfix"])])

/-- The kinds of providers that are announced once for all. -/
def announced (providers : List Provider) : List (String × Json) :=
  ([.formatting, .hover, .codeAction].filter (Provider.provides providers)).map announcement

def greeting (providers : List Provider) : Json :=
  .mk [("capabilities", .mk (announced providers ++
      [("textDocumentSync", syncOptions),
        ("executeCommandProvider", .mk [("commands", .strings Command.ids)])])),
    ("serverInfo", .mk [("name", .string "sqlfluff-lsp"), ("version", .string "0.1.0")])]

/-- The first workspace folder, or else the root. -/
def rootOf (p : StartParams) : Option String :=
  (p.folders.head?.bind Uri.filePath?) <|> p.root.bind Uri.filePath?

def start (p : StartParams) : Handler Json := do
  Handler.modifyServer fun s => { s with root := rootOf p <|> s.root }
  match p.options with
  | some sent => configure sent
  | none => pure ()
  Handler.modifyServer fun s => { s with dynamic := p.dynamic }
  if p.dynamic then return greeting []
  else return greeting (Provider.wanted (← loadSettings))

def setPhase (phase : Phase) : Handler Unit := Handler.modifyServer fun s => { s with phase := phase }

def answer (r : Request) : Handler (Except RpcError Json) := do
  match r with
  | .start p =>
    let greeting ← start p
    setPhase .running
    return .ok greeting
  | .stop =>
    setPhase .stopped
    releaseProviders
    return .ok .null
  | .formatting uri =>
    let edits ← formatting uri
    return .ok (Json.ofOption (fun es => .array (es.map EditorRequest.TextEdit.toJson)) edits)
  | .hover uri position =>
    let text := hover? (← Handler.server) uri.text position
    return .ok (Json.ofOption (fun text =>
      .mk [("contents", .mk [("kind", .string "markdown"), ("value", .string text)])]) text)
  | .codeAction uri ds =>
    let actions ← codeActions uri ds
    return .ok (Json.ofOption (fun as => .array (as.map CodeAction.toJson)) actions)
  | .executeCommand name arguments =>
    return (← executeCommand name arguments).map (Json.ofOption Json.strings)

def invalidRequest : RpcError := ⟨-32600, "Invalid request", none⟩

def notInitialized : RpcError := ⟨-32002, "Server not initialized", none⟩

def cancelled : RpcError := ⟨-32800, "Canceled", none⟩

/-- The refusal of a request in a phase in which it has no place: only the first one starts the
session. -/
def refusal? (phase : Phase) (starts : Bool) : Option RpcError :=
  match phase, starts with
  | .waiting, true => none
  | .waiting, false | .starting, false => some notInitialized
  | .running, false => none
  | _, _ => some invalidRequest

def Request.starts : Request → Bool
  | .start _ => true
  | _ => false

def request (r : Request) : Handler (Except RpcError Json) := do
  match refusal? (← Handler.server).phase (Request.starts r) with
  | some e => return .error e
  | none => answer r

/-- Takes the editor's new settings, and brings providers and findings in line with them. -/
def didChangeConfiguration (sent : Json) : Handler Unit := do
  configure sent
  syncProviders
  lintOpenDocuments

/-- Does what a notification is for. Being told to stop, where an answer is not awaited, ends the
session's turn and nothing more. -/
def receive (n : Notification) : Handler Unit := do
  match n with
  | .started =>
    syncProviders
    Handler.log .info "sqlfluff LSP server initialized"
  | .opened uri language text => didOpen uri language text
  | .changed uri changes => didChange uri changes
  | .saved uri text => didSave uri text
  | .closed uri => didClose uri
  | .configured sent => didChangeConfiguration sent
  | .stop => setPhase .stopped
  | .exit => pure ()

def notify (n : Notification) : Handler Unit := do
  match n with
  | .exit => setPhase .exited
  | n => if (← Handler.server).phase = .running then receive n

end Server
end SqlLint
