import SqlLint.Server.Configuration

/-! # Formatting documents -/
namespace SqlLint.Server

/-- The edit that turns a text into another one; none if they are the same. -/
def replacement? (old new : List Char) : Option (List TextEdit) :=
  if new = old then none else some [⟨Text.fullRange old, new⟩]

/-- Lets the linter fix an open document. -/
def fixEdits (uri : Uri) : Handler (Except LinterError (Option (List TextEdit))) := do
  match (← Handler.server).document? uri.text with
  | none =>
    Handler.log .error ("Document not found: " ++ uri.text)
    return .ok none
  | some d =>
    let settings ← loadSettings
    if settings.format then
      let i := Linter.fixInvocation settings (String.ofList d.text) uri.filePath? none
      return (← Handler.run i).map fun fixed => replacement? d.text fixed.toList
    else return .ok none

/-- The edits that format a document; none if nothing changes or the linter fails. -/
def formatting (uri : Uri) : Handler (Option (List TextEdit)) := do
  Handler.log .info ("Formatting request for " ++ uri.text)
  match ← fixEdits uri with
  | .ok edits => return edits
  | .error e =>
    Handler.log .error ("Formatting failed: " ++ e.message)
    return none

end SqlLint.Server
