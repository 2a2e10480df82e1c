import SqlLint.Files.Tree
import SqlLint.Settings.Decode
import SqlLint.Toml.Document

/-! # Settings files -/
namespace SqlLint

inductive Scope | global | workspace deriving DecidableEq, Repr

def Scope.name : Scope → String
  | .global => "global"
  | .workspace => "workspace"

inductive SettingsError
  | io (detail : String)
  | parse (path : String) (detail : String)
  | scopeUnavailable (scope : Scope)
  deriving DecidableEq, Repr

def SettingsError.message : SettingsError → String
  | .io detail => "settings I/O error: " ++ detail
  | .parse path detail => "invalid settings " ++ path ++ ": " ++ detail
  | .scopeUnavailable scope => "no " ++ scope.name ++ " settings location is available"

namespace Datum

mutual
def ofToml : Toml.Value → Datum
  | .scalar (.bool b) => .bool b
  | .scalar (.int n) => .int n
  | .scalar (.float x) => .float x
  | .scalar .beyond => .beyond
  | .scalar (.string s) => .text (String.ofList s)
  | .scalar (.date _) => .date
  | .array items => .list (ofTomlItems items)
  | .table entries => .table (ofTomlEntries entries)

def ofTomlItems : List Toml.Value → List Datum
  | [] => []
  | v :: rest => ofToml v :: ofTomlItems rest

def ofTomlEntries : List (String × Toml.Value) → List (String × Datum)
  | [] => []
  | (k, v) :: rest => (k, ofToml v) :: ofTomlEntries rest
end

end Datum

namespace Layer

def ofToml (text : String) : Except Fault Layer := do
  let d ← Toml.Document.read (fun _ => true) text.toList
  decode .toml (.table (Datum.ofTomlEntries d.table))

/-- The layer of a settings file; a missing file sets nothing. -/
def ofFile (t : Tree) (path : String) : Except SettingsError Layer :=
  match t.readText path with
  | .error .notFound => .ok {}
  | .error e => .error (.io e.message)
  | .ok text =>
    match ofToml text with
    | .ok layer => .ok layer
    | .error f => .error (.parse path f.message)

end Layer

namespace Settings

/-- Where the global settings are, by the environment. -/
def globalPath? (xdg home : Option String) : Option String :=
  match xdg.filter (· ≠ ""), home with
  | some xdg, _ => some (Path.join (Path.join xdg "sqlfluff-lsp") "config.toml")
  | none, some home => some (Path.join (Path.join (Path.join home ".config") "sqlfluff-lsp") "config.toml")
  | none, none => none

def workspacePath (root : String) : String := Path.join root ".sqlfluff-lsp.toml"

/-- The settings of the global and the workspace file; one that cannot be read is left out. -/
def load (t : Tree) (global workspace : Option String) : Settings :=
  resolve ((global.toList ++ workspace.toList).filterMap fun path => (Layer.ofFile t path).toOption)

end Settings
end SqlLint
