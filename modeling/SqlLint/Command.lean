import SqlLint.Json.Value
import SqlLint.Settings.File

/-! # Commands of the editor -/
namespace SqlLint

inductive Command
  | excludeRule (rule : String) (scope : Scope)
  | viewDocumentation (rule : String)
  | lint (document : Option String)
  | lintProject
  | fix (document : Option String)
  deriving DecidableEq, Repr

inductive CommandError
  | unknownCommand (id : String)
  | invalidArguments (command : String) (detail : String)
  | settings (error : SettingsError)
  | host (detail : String)
  deriving DecidableEq, Repr

def CommandError.message : CommandError → String
  | .unknownCommand id => "unknown command: " ++ id
  | .invalidArguments command detail => "invalid arguments for " ++ command ++ ": " ++ detail
  | .settings e => e.message
  | .host detail => detail

namespace Command

def id : Command → String
  | .excludeRule _ .global => "sqlfluff.quickfix.excludeRule"
  | .excludeRule _ .workspace => "sqlfluff.quickfix.excludeRuleWorkspace"
  | .viewDocumentation _ => "sqlfluff.quickfix.viewDocumentation"
  | .lint _ => "sqlfluff.lint"
  | .lintProject => "sqlfluff.lintProject"
  | .fix _ => "sqlfluff.fix"

/-- The identifiers that the editor is told of. -/
def ids : List String :=
  [id (.excludeRule "" .global), id (.excludeRule "" .workspace), id (.viewDocumentation ""),
    id (.lint none), id .lintProject, id (.fix none)]

/-- A command on a rule takes its identifier first. -/
def ruleArgument (command : String) : List Json → Except CommandError String
  | .string rule :: _ =>
    if rule.isEmpty then .error (.invalidArguments command "expected a rule identifier string")
    else .ok rule
  | _ => .error (.invalidArguments command "expected a rule identifier string")

def documentArgument (arguments : List Json) : Option String := arguments.head?.bind Json.string?

def parse (name : String) (arguments : List Json) : Except CommandError Command :=
  match name with
  | "sqlfluff.quickfix.excludeRule" => (ruleArgument name arguments).map (.excludeRule · .global)
  | "sqlfluff.quickfix.excludeRuleWorkspace" =>
    (ruleArgument name arguments).map (.excludeRule · .workspace)
  | "sqlfluff.quickfix.viewDocumentation" => (ruleArgument name arguments).map .viewDocumentation
  | "sqlfluff.lint" => .ok (.lint (documentArgument arguments))
  | "sqlfluff.lintProject" => .ok .lintProject
  | "sqlfluff.fix" => .ok (.fix (documentArgument arguments))
  | _ => .error (.unknownCommand name)

end Command
end SqlLint
