import SqlLint.Command
import SqlLint.Server.Configuration

/-! # Quick fixes -/
namespace SqlLint

/-- A diagnostic that the editor sends back, with what it holds besides source and code. -/
structure SentDiagnostic where
  source : Option String
  code : Option String
  body : Json

structure CodeAction where
  title : String
  diagnostic : Json
  command : Command

namespace CodeAction

def titleOf (rule : String) : Command → String
  | .excludeRule _ .global => "Exclude Rule " ++ rule ++ " from Global Settings"
  | .excludeRule _ .workspace => "Exclude Rule " ++ rule ++ " from Workspace Settings"
  | _ => "View Documentation for Rule " ++ rule

/-- The three actions for a rule. -/
def ofRule (rule : String) (diagnostic : Json) : List CodeAction :=
  [.excludeRule rule .global, .excludeRule rule .workspace, .viewDocumentation rule].map fun command =>
    ⟨titleOf rule command, diagnostic, command⟩

/-- The rule of a diagnostic that came from the linter. -/
def rule? (d : SentDiagnostic) : Option String :=
  if d.source = some Diagnostic.source then d.code else none

/-- The actions for each rule among the diagnostics, in the order in which the rules appear. -/
def ofDiagnostics (seen : List String) : List SentDiagnostic → List CodeAction
  | [] => []
  | d :: rest =>
    match rule? d with
    | none => ofDiagnostics seen rest
    | some rule =>
      if rule ∈ seen then ofDiagnostics seen rest
      else ofRule rule d.body ++ ofDiagnostics (rule :: seen) rest

def argument : Command → List Json
  | .excludeRule rule _ => [.string rule]
  | .viewDocumentation rule => [.string rule]
  | .lint document => (document.map Json.string).toList
  | .lintProject => []
  | .fix document => (document.map Json.string).toList

def toJson (a : CodeAction) : Json :=
  .mk [("title", .string a.title), ("kind", .string "quickfix"), ("diagnostics", .array [a.diagnostic]),
    ("command", .mk [("title", .string a.title), ("command", .string a.command.id),
      ("arguments", .array (argument a.command))])]

end CodeAction

namespace Server

/-- The quick fixes for an open document, unless another backend brings its own. -/
def codeActions (uri : Uri) (diagnostics : List SentDiagnostic) : Handler (Option (List CodeAction)) := do
  if !(← Handler.server).isOpen uri.text then return none
  else if (← loadSettings).osmosis then return none
  else return some (CodeAction.ofDiagnostics [] diagnostics)

end Server
end SqlLint
