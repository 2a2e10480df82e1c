import SqlLint.Server.Configuration

/-! # Linting documents -/
namespace SqlLint.Server

def diagnostics (violations : List Violation) (text : List Char) : List Diagnostic :=
  violations.map (Diagnostic.ofViolation text)

def setViolations (uri : String) (violations : List Violation) (s : Server) : Server :=
  s.update uri fun d => { d with violations := violations }

/-- Keeps the findings of a document and publishes them. -/
def publishFindings (uri : String) (violations : List Violation) (text : List Char) : Handler Unit := do
  Handler.modifyServer (setViolations uri violations)
  Handler.publish uri (diagnostics violations text)

/-- Lints an open document; after a failed run everything is as it was. -/
def lintDocument (uri : Uri) : Handler (Except LinterError Unit) := do
  match (← Handler.server).document? uri.text with
  | none =>
    Handler.log .warning ("Document not found: " ++ uri.text)
    return .ok ()
  | some d =>
    let settings ← loadSettings
    let i := Linter.lintInvocation settings (String.ofList d.text) uri.filePath? none
    match (← Handler.run i).bind Linter.violations with
    | .ok violations =>
      publishFindings uri.text violations d.text
      return .ok ()
    | .error e => return .error e

/-- Lints a document and reports a failure to the editor. -/
def lintAndReport (uri : Uri) : Handler Unit := do
  match ← lintDocument uri with
  | .ok _ => pure ()
  | .error e => Handler.log .error ("Linting failed: " ++ e.message)

/-- Lints documents one after another. -/
def lintAll (uris : List String) : Handler Unit :=
  uris.forM fun uri =>
    match Uri.parse? uri with
    | some uri => lintAndReport uri
    | none => pure ()

def lintOpenDocuments : Handler Unit := do
  if (← loadSettings).run ≠ .off then
    lintAll ((← Handler.server).documents.map Prod.fst)

/-- The identifier of a file; a relative path must be that of an existing file. -/
def uriOf? (t : Tree) (path : String) : Option Uri :=
  if Path.isAbsolute path then some (Uri.ofFilePath path) else (t.canonical? path).map Uri.ofFilePath

/-- The text of a reported file: of the open document or else of the file. -/
def reportedText (s : Session) (uri path : String) : List Char :=
  match s.server.document? uri with
  | some d => d.text
  | none => match s.tree.readText path with
    | .ok text => text.toList
    | .error _ => []

def publishReport (directory : String) (report : FileReport) : Handler Unit := do
  let session ← get
  let path := Path.join directory report.path
  match uriOf? session.tree path with
  | some uri => publishFindings uri.text report.violations (reportedText session uri.text path)
  | none => pure ()

/-- Lints all files of the workspace. -/
def lintProject (root : String) : Handler (Except LinterError Unit) := do
  let settings ← loadSettings
  let directory := settings.workingDirectory.getD root
  Handler.log .info ("Linting project at " ++ root)
  match (← Handler.run (Linter.pathInvocation settings root (some directory))).bind Linter.reports with
  | .ok reports =>
    reports.forM (publishReport directory)
    return .ok ()
  | .error e => return .error e

end SqlLint.Server
