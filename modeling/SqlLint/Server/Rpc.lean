import SqlLint.Server.Message
import SqlLint.Text.Blank
import SqlLint.Text.Split

/-! # Bodies on the wire

Requests carry an identifier, which their answer repeats; notifications carry none. -/
namespace SqlLint

namespace LogKind

def number : LogKind → Nat
  | .error => 1
  | .warning => 2
  | .info => 3

end LogKind

namespace Event

def publishParams (uri : String) (diagnostics : List Diagnostic) : Json :=
  .mk [("uri", .string uri), ("diagnostics", .array (diagnostics.map Diagnostic.toJson))]

def logParams (kind : LogKind) (message : String) : Json :=
  .mk [("type", .nat kind.number), ("message", .string message)]

end Event

namespace Rpc

def body (members : List (String × Json)) : Json := .mk (("jsonrpc", .string "2.0") :: members)

def notification (method : String) (params : Json) : Json :=
  body [("method", .string method), ("params", params)]

def request (id : Nat) (method : String) (params : Json) : Json :=
  body [("id", .nat id), ("method", .string method), ("params", params)]

def response (id : Json) : Except RpcError Json → Json
  | .ok result => body [("id", id), ("result", result)]
  | .error e => body [("id", id), ("error", e.toJson)]

/-- What is written for an event, where the next request of the server has a given number. -/
def ofEvent (next : Nat) : Event → Option Json
  | .request r => some (request next r.method r.params)
  | .publish uri ds => some (notification "textDocument/publishDiagnostics" (Event.publishParams uri ds))
  | .log kind message => some (notification "window/logMessage" (Event.logParams kind message))
  | .run .. => none

/-- What is written for events in their order; the server's requests are numbered. -/
def ofEvents (next : Nat) : List Event → List Json
  | [] => []
  | e :: rest =>
    let following := match e with
      | .request _ => next + 1
      | _ => next
    (ofEvent next e).toList ++ ofEvents following rest

/-- How many requests of the server are among events. -/
def requestCount (events : List Event) : Nat :=
  (events.filter fun
    | .request _ => true
    | _ => false).length

/-- What a body is. -/
inductive Incoming
  | answer
  | request (id : Json) (method : String) (params : Option Json)
  | notification (method : String) (params : Option Json)

def isVersion (j : Json) : Bool := j.string? == some "2.0"

def isId : Json → Bool
  | .null | .string _ => true
  | .number (.int n) => Word.isSigned 64 n
  | _ => false

open Shape in
def failure : Shape :=
  record "Error" [required "code" (number (Word.isSigned 64) .signedWord), required "message" text,
    optional "data" anything]

/-- An answer gives a result, whatever it is, or an error. -/
def isAnswer (j : Json) : Bool :=
  (j.get? "jsonrpc").any isVersion && (j.get? "id").any isId &&
    ((j.get? "result").isSome || (j.get? "error").any fun e => (failure .embedded e).toOption.isSome)

/-- The call that is made of its four parts. The empty method is nobody's. -/
def ofParts (version method params id : Option Json) : Option Incoming :=
  match version.any isVersion, method.getD (.string ""), id with
  | true, .string method, none => some (.notification method params)
  | true, .string method, some id => if isId id then some (.request id method params) else none
  | _, _, _ => none

/-- What a body is, if it is anything; a call may also list its parts. -/
def incoming? (j : Json) : Option Incoming :=
  if isAnswer j then some .answer
  else match j with
    | .object _ => ofParts (j.get? "jsonrpc") (j.get? "method") (j.get? "params") (j.get? "id")
    | .array items =>
      if items.length ≤ 4 then ofParts items[0]? items[1]? items[2]? items[3]? else none
    | _ => none

/-- Does what a body is for and answers the replies to it. Nobody waits for answers here. -/
def reply : Incoming → Handler (List Json)
  | .answer => return []
  | .request id method params => do
    match ← Message.answer method params with
    | .given answer => return [response id answer]
    | .nothing | .unheard => return []
  | .notification method params => do
    Message.notify method params
    return []

/-- The order of the server's messages and its answer: an answer passes a single message that waits, but
several of them do not wait for it. -/
def inTurn : List Json → List Json → List Json
  | [message], answers => answers ++ [message]
  | messages, answers => messages ++ answers

/-- Takes one message and answers what is written for it; the server's earlier requests are counted. -/
def receive (received : Incoming) : Handler (List Json) := do
  let before := (← get).events
  let replies ← reply received
  return inTurn (ofEvents (requestCount before) ((← get).events.drop before.length)) replies

/-- What is written for a body that is no message. -/
def invalid : Json := response .null (.error Server.invalidRequest)

/-- What is written for a body that cannot be read at all. -/
def unreadable : Json := response .null (.error ⟨-32700, "Parse error", none⟩)

/-- The number of bytes that a line in front of a body announces. -/
def contentLength? (line : String) : Option Nat :=
  match Text.cut ':' line.toList with
  | (name, some value) =>
    if String.ofList name = "Content-Length" then (String.ofList (Text.trim value)).toNat? else none
  | _ => none

/-- A body with its length in bytes in front. -/
def frame (j : Json) : String :=
  "Content-Length: " ++ toString j.render.utf8ByteSize ++ "\r\n\r\n" ++ j.render

/-- Whether a message ends the session. -/
def Incoming.ends : Incoming → Bool
  | .request _ method _ | .notification method _ => method == "exit"
  | .answer => false

/-- Whether a message takes back the request of an identifier, alone or with the whole session. -/
def Incoming.cancels (id : Json) (m : Incoming) : Bool :=
  m.ends || match m with
    | .notification method params => Message.cancels id method params
    | _ => false

/-- The messages among bodies, up to the first body that is none or the message that ends the session,
and whether a body that is no message comes next. -/
def messages : List Json → List Incoming × Bool
  | [] => ([], false)
  | body :: rest =>
    match incoming? body with
    | none => ([], true)
    | some m =>
      if m.ends then ([m], rest.head?.any fun next => (incoming? next).isNone)
      else (m :: (messages rest).1, (messages rest).2)

/-- Takes the request that starts a session, unless one of the messages that are already there takes
it back. For all of those the session is still starting. -/
def receiveStart (id : Json) (params : Option Json) (waiting : List Incoming) :
    Handler (List Json) := do
  let written ←
    if waiting.any (Incoming.cancels id) then pure [response id (.error Server.cancelled)]
    else receive (.request id "initialize" params)
  Server.setPhase .starting
  return written

/-- Takes messages that have arrived together. -/
def receiveTogether : List Incoming → Handler (List Json)
  | [] => return []
  | m :: rest => do
    let written ←
      match m, (← Handler.server).phase with
      | .request id "initialize" params, .waiting => receiveStart id params rest
      | m, _ => receive m
    return written ++ (← receiveTogether rest)

/-- Takes bodies that have arrived together, as far as they are messages. They are looked at before any
of them is worked on, so that what is written for a body that is no message comes first. -/
def receiveAll (bodies : List Json) : Handler (List Json) := do
  let (received, spoiled) := messages bodies
  let written ← receiveTogether received
  return (if spoiled then [invalid] else []) ++ written

end Rpc
end SqlLint
