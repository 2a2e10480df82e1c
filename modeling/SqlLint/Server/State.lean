import SqlLint.Diagnostic
import SqlLint.Linter.Run
import SqlLint.Provider
import SqlLint.Settings.Store

/-! # The state of the server

The server sees its surroundings through the replies of the editor and of the linter, and leaves a
trace of what it sends and runs. -/
namespace SqlLint

/-- An open document and the findings of its last run. -/
structure Document where
  text : List Char
  language : String
  violations : List Violation
  deriving DecidableEq, Repr

inductive Phase | waiting | starting | running | stopped | exited deriving DecidableEq, Repr

/-- The documents are in the order in which they were opened. -/
structure Server where
  phase : Phase := .waiting
  documents : List (String × Document) := []
  active : Option String := none
  root : Option String := none
  globalFile : Option String := none
  client : Layer := {}
  registered : List Provider := []
  dynamic : Bool := false
  deriving DecidableEq, Repr

structure TextEdit where
  range : Range
  text : List Char
  deriving DecidableEq, Repr

/-- What the server asks the editor for. -/
inductive EditorRequest
  | register (providers : List Provider)
  | unregister (providers : List Provider)
  | showDocument (url : String)
  | applyEdit (uri : String) (edits : List TextEdit)
  deriving DecidableEq, Repr

inductive LogKind | error | warning | info deriving DecidableEq, Repr

/-- What the server sends or runs. -/
inductive Event
  | request (r : EditorRequest)
  | publish (uri : String) (diagnostics : List Diagnostic)
  | log (kind : LogKind) (message : String)
  | run (invocation : Invocation) (started : Bool)
  deriving DecidableEq, Repr

structure RpcError where
  code : Int
  message : String
  data : Option String := none
  deriving DecidableEq, Repr

/-- How the editor answers requests, and the programs that can be run. -/
structure Environment where
  editor : EditorRequest → Except RpcError Json
  programs : Programs

structure Session where
  server : Server
  tree : Tree
  events : List Event := []

/-- What a handler of the server does. -/
abbrev Handler (α : Type) := ReaderT Environment (StateM Session) α

namespace RpcError

/-- The error of an answer that does not have its shape. -/
def unreadable (detail : String) : RpcError := ⟨-32700, detail, none⟩

def description (e : RpcError) : String :=
  if e.code = -32700 then "Parse error"
  else if e.code = -32600 then "Invalid request"
  else if e.code = -32601 then "Method not found"
  else if e.code = -32602 then "Invalid params"
  else if e.code = -32603 then "Internal error"
  else if e.code = -32800 then "Canceled"
  else if e.code = -32801 then "Content modified"
  else "Server error"

def text (e : RpcError) : String := e.description ++ ": " ++ e.message

def toJson (e : RpcError) : Json :=
  .mk ([("code", .int e.code), ("message", .string e.message)] ++
    (e.data.map fun d => ("data", Json.string d)).toList)

end RpcError

namespace Server

def document? (s : Server) (uri : String) : Option Document := s.documents.lookup uri

def isOpen (s : Server) (uri : String) : Bool := (s.document? uri).isSome

/-- Changes a document if it is open. -/
def update (s : Server) (uri : String) (f : Document → Document) : Server :=
  { s with documents := s.documents.map fun d => if d.1 = uri then (d.1, f d.2) else d }

/-- Opens a document, or opens it anew in its place. -/
def openDocument (s : Server) (uri : String) (d : Document) : Server :=
  if s.isOpen uri then s.update uri fun _ => d
  else { s with documents := s.documents ++ [(uri, d)] }

def closeDocument (s : Server) (uri : String) : Server :=
  { s with documents := s.documents.filter fun d => d.1 ≠ uri
           active := if s.active = some uri then none else s.active }

theorem lookup_map_update (uri other : String) (f : Document → Document)
    (documents : List (String × Document)) :
    (documents.map fun d => if d.1 = uri then (d.1, f d.2) else d).lookup other =
      if other = uri then (documents.lookup other).map f else documents.lookup other := by
  induction documents with
  | nil => simp
  | cons d documents ih =>
    obtain ⟨k, v⟩ := d
    by_cases hk : k = uri
    · by_cases ho : other = uri
      · simp [hk, ho]
      · have hn : (other == uri) = false := beq_false_of_ne ho
        simp [hk, ho, List.lookup_cons, hn] at ih ⊢
        exact ih
    · by_cases ho : other = k
      · subst ho
        simp [hk]
      · have hn : (other == k) = false := beq_false_of_ne ho
        simp [hk, List.lookup_cons, hn, ih]

theorem document?_update (s : Server) (uri other : String) (f : Document → Document) :
    (s.update uri f).document? other =
      if other = uri then (s.document? other).map f else s.document? other :=
  lookup_map_update uri other f s.documents

end Server

namespace EditorRequest

def TextEdit.toJson (e : TextEdit) : Json :=
  .mk [("range", e.range.toJson), ("newText", .string (String.ofList e.text))]

def method : EditorRequest → String
  | .register _ => "client/registerCapability"
  | .unregister _ => "client/unregisterCapability"
  | .showDocument _ => "window/showDocument"
  | .applyEdit .. => "workspace/applyEdit"

def params : EditorRequest → Json
  | .register providers => .mk [("registrations", .array (providers.map Provider.registration))]
  | .unregister providers =>
    .mk [("unregisterations", .array (providers.map Provider.unregistration))]
  | .showDocument url => .mk [("uri", .string url), ("external", .bool true)]
  | .applyEdit uri edits =>
    .mk [("edit", .mk [("changes", .mk [(uri, .array (edits.map TextEdit.toJson))])])]

/-- The answer of an editor that does what it is asked for. -/
def granted : EditorRequest → Json
  | .showDocument _ => .mk [("success", .bool true)]
  | .applyEdit .. => .mk [("applied", .bool true)]
  | _ => .null

end EditorRequest

namespace Handler

def server : Handler Server := return (← get).server

def modifyServer (f : Server → Server) : Handler Unit := modify fun s => { s with server := f s.server }

def record (e : Event) : Handler Unit := modify fun s => { s with events := s.events ++ [e] }

def log (kind : LogKind) (message : String) : Handler Unit := record (.log kind message)

def publish (uri : String) (diagnostics : List Diagnostic) : Handler Unit :=
  record (.publish uri diagnostics)

def ask (r : EditorRequest) : Handler (Except RpcError Json) := do
  record (.request r)
  return (← read).editor r

/-- Runs the linter and answers its output. -/
def run (i : Invocation) : Handler (Except LinterError String) := do
  let programs := (← read).programs
  let tree := (← get).tree
  record (.run i (i.obstacle? programs tree).isNone)
  return Linter.run programs tree i

end Handler
end SqlLint
