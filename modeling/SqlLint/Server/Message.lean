import SqlLint.Server.Session

/-! # Messages of the editor

Parameters that do not have their shape make a request invalid, and a notification void. Those that
have it are in standard form when they are looked at here. -/
namespace SqlLint.Message

/-- What is read of a member. -/
def member? {α : Type} (read : Json → Option α) (key : String) (j : Json) : Option α :=
  (j.get? key).bind read

def all? {α : Type} (read : Json → Option α) (j : Json) : Option (List α) := j.items.mapM read

def uri? (j : Json) : Option Uri := j.string?.bind Uri.parse?

def text? (j : Json) : Option (List Char) := j.string?.map String.toList

def position? (j : Json) : Option Position := do
  return ⟨← member? Json.nat? "line" j, ← member? Json.nat? "character" j⟩

def range? (j : Json) : Option Range := do
  return ⟨← member? position? "start" j, ← member? position? "end" j⟩

def document? (j : Json) : Option Uri := member? (member? uri? "uri") "textDocument" j

def change? (j : Json) : Option Change := do
  return ⟨member? range? "range" j, ← member? text? "text" j⟩

/-- A code is a text or a number, which counts as its text. -/
def code? : Json → Option String
  | .string s => some s
  | .number (.int n) => some (toString n)
  | _ => none

def diagnostic (j : Json) : SentDiagnostic :=
  ⟨member? Json.string? "source" j, member? code? "code" j, j⟩

def startParams (j : Json) : StartParams where
  folders := (member? (all? (member? uri? "uri")) "workspaceFolders" j).getD []
  root := member? uri? "rootUri" j
  options := j.get? "initializationOptions"
  dynamic := ((j.get? "capabilities").map Provider.dynamic).getD false

/-- The request of a method; none stands for one that is not answered here. -/
def request? (method : String) (j : Json) : Option Request :=
  match method with
  | "initialize" => some (.start (startParams j))
  | "shutdown" => some .stop
  | "textDocument/formatting" => (document? j).map .formatting
  | "textDocument/hover" => do return .hover (← document? j) (← member? position? "position" j)
  | "textDocument/codeAction" => do
    let sent ← (j.get? "context").bind (Json.get? "diagnostics")
    return .codeAction (← document? j) (sent.items.map diagnostic)
  | "workspace/executeCommand" =>
    (member? Json.string? "command" j).map fun name =>
      .executeCommand name (((j.get? "arguments").map Json.items).getD [])
  | _ => none

def opened? (j : Json) : Option Notification := do
  let item ← j.get? "textDocument"
  return .opened (← member? uri? "uri" item) (← member? Json.string? "languageId" item)
    (← member? text? "text" item)

/-- The notification of a method; none stands for one that is ignored. -/
def notification? (method : String) (j : Json) : Option Notification :=
  match method with
  | "initialized" => some .started
  | "textDocument/didOpen" => opened? j
  | "textDocument/didChange" => do
    return .changed (← document? j) (← member? (all? change?) "contentChanges" j)
  | "textDocument/didSave" => (document? j).map (.saved · (member? text? "text" j))
  | "textDocument/didClose" => (document? j).map .closed
  | "workspace/didChangeConfiguration" => (j.get? "settings").map .configured
  | _ => none

def methodNotFound (data : Option String) : RpcError := ⟨-32601, "Method not found", data⟩

def invalidParams (detail : String) : RpcError := ⟨-32602, detail, none⟩

/-- Brings parameters in standard form. Only a request to stop has none. -/
def standard (method : String) (shape : Shape) : Option Json → Except String Json
  | some j =>
    (shape .plain j).mapError fun f =>
      if method = "shutdown" then "Unexpected params: " ++ j.render else f.message
  | none => if method = "shutdown" then .ok .null else .error "Missing params field"

/-- Refuses a request that cannot be answered. Its turn counts first, and one to stop counts all the
same. -/
def refuse (method : String) (e : RpcError) : Handler RpcError := do
  match Server.refusal? (← Handler.server).phase (method == "initialize") with
  | some e => return e
  | none =>
    if method = "shutdown" then Server.setPhase .stopped
    return e

/-- A notification is no request: it is refused, whatever it says, and only the last one does what it
is for. -/
def refuseNotification (method : String) : Handler (Option RpcError) := do
  if method = "exit" then
    Server.setPhase .exited
    return none
  else if [.waiting, .starting].contains (← Handler.server).phase ∧ method ≠ "$/cancelRequest" then
    return some Server.notInitialized
  else return some Server.invalidRequest

/-- What becomes of a request: an answer, or nothing, or it is not heard once the session has ended. -/
inductive Reply
  | given (answer : Except RpcError Json)
  | nothing
  | unheard

/-- Answers a request of the editor. Methods of the editor's own are passed over. -/
def answer (method : String) (params : Option Json) : Handler Reply := do
  if (← Handler.server).phase = .exited then return .unheard
  match Protocol.requests.lookup method with
  | some shape =>
    match standard method shape params with
    | .error detail => return .given (.error (← refuse method (invalidParams detail)))
    | .ok j =>
      match request? method j with
      | some r => return .given (← Server.request r)
      | none => return .given (.error (← refuse method (methodNotFound none)))
  | none =>
    if (Protocol.notifications.lookup method).isSome then
      match ← refuseNotification method with
      | some e => return .given (.error e)
      | none => return .nothing
    else if method.startsWith "$/" then return .nothing
    else return .given (.error (methodNotFound (some method)))

/-- Whether a notification takes back the request of an identifier. -/
def cancels (id : Json) (method : String) (params : Option Json) : Bool :=
  method == "$/cancelRequest" &&
    (params.bind fun j => (Protocol.cancelParams .plain j).toOption).any fun j => j.get? "id" == some id

def notify (method : String) (params : Option Json) : Handler Unit := do
  if method = "exit" then Server.notify .exit
  else if method = "shutdown" then Server.notify .stop
  else
    match Protocol.notifications.lookup method with
    | some shape =>
      match ((standard method shape params).toOption).bind (notification? method) with
      | some n => Server.notify n
      | none => pure ()
    | none => pure ()

end SqlLint.Message
