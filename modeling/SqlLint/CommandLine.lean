import SqlLint.Settings.Store

/-! # The command line

A level of the command line has options, and either subcommands or plain arguments. What follows two
dashes is plain. An option's value may follow it or be attached to it. -/
namespace SqlLint.CommandLine

inductive Action
  | serve
  | showDocumentation (rule : String)
  | excludeRule (rule : String) (inWorkspace : Bool) (root : Option String)
  deriving DecidableEq, Repr

structure Request where
  action : Action
  config : Option String
  deriving DecidableEq, Repr

inductive UsageError
  | helpForMissing
  | help
  | version
  | missingSubcommand
  | missingArgument
  | invalidSubcommand
  | unknownArgument
  | invalidValue
  | conflict
  | tooManyValues
  deriving DecidableEq, Repr

/-- The options that take a value. -/
inductive ValueOption | config | root deriving DecidableEq, Repr

inductive Subcommand | lsp | excludeRule | docs deriving DecidableEq, Repr

namespace Subcommand

def ofName? : String → Option Subcommand
  | "lsp" => some .lsp
  | "exclude-rule" => some .excludeRule
  | "docs" => some .docs
  | _ => none

end Subcommand

/-- What one level understands. -/
structure Level where
  subcommands : Bool
  version : Bool
  workspace : Bool
  root : Bool
  rule : Bool

namespace Level

def top : Level := ⟨true, true, false, false, false⟩

def ofSubcommand : Subcommand → Level
  | .lsp => ⟨false, false, false, false, false⟩
  | .excludeRule => ⟨false, false, true, true, true⟩
  | .docs => ⟨false, false, false, false, true⟩

end Level

/-- What has been read at one level; an option may still wait for its value or for its turn. -/
structure Reading where
  config : Option String := none
  root : Option String := none
  workspace : Bool := false
  rule : Option String := none
  pending : Option (ValueOption × Option String) := none
  plain : Bool := false
  deriving DecidableEq, Repr

namespace Reading

def isEmpty (r : Reading) : Bool := r == {} || r == { plain := true }

/-- Takes the waiting option. A path must not be empty, and an option is given once. -/
def settle (r : Reading) : Except UsageError Reading :=
  match r.pending with
  | none => .ok r
  | some (_, none) => .error .invalidValue
  | some (.config, some value) =>
    if r.config.isSome then .error .conflict
    else if value.isEmpty then .error .invalidValue
    else .ok { r with config := some value, pending := none }
  | some (.root, some value) =>
    if r.root.isSome then .error .conflict
    else if value.isEmpty then .error .invalidValue
    else .ok { r with root := some value, pending := none }

end Reading

/-- An option's name and the value attached to it. -/
def splitOption (text : String) : String × Option String :=
  let (name, value) := Text.cut '=' text.toList
  (String.ofList name, value.map String.ofList)

/-- An argument that starts with two dashes. -/
def readLong (level : Level) (text : String) (r : Reading) : Except UsageError Reading :=
  let (name, value) := splitOption text
  let valued (o : ValueOption) : Except UsageError Reading := do
    let r ← r.settle
    let r := { r with pending := some (o, value) }
    if value.isSome then r.settle else .ok r
  let flag (act : Reading → Except UsageError Reading) : Except UsageError Reading :=
    if value.isSome then .error .tooManyValues else r.settle.bind act
  match name with
  | "config" => valued .config
  | "root" => if level.root then valued .root else .error .unknownArgument
  | "workspace" =>
    if level.workspace then
      flag fun r => if r.workspace then .error .conflict else .ok { r with workspace := true }
    else .error .unknownArgument
  | "help" => flag fun _ => .error .help
  | "version" => if level.version then flag fun _ => .error .version else .error .unknownArgument
  | _ => .error .unknownArgument

/-- An argument that starts with one dash: only its first letter counts. -/
def readShort (level : Level) (letters : List Char) (r : Reading) : Except UsageError Reading :=
  match letters with
  | 'h' :: _ => r.settle.bind fun _ => .error .help
  | 'V' :: _ => if level.version then r.settle.bind fun _ => .error .version else .error .unknownArgument
  | _ => .error .unknownArgument

/-- A plain argument. -/
def readPlain (level : Level) (text : String) (r : Reading) : Except UsageError Reading :=
  if level.rule ∧ r.rule.isNone then (r.settle).map fun r => { r with rule := some text }
  else if level.subcommands ∧ ¬(r.plain ∧ ((Subcommand.ofName? text).isSome ∨ text = "help")) then
    .error .invalidSubcommand
  else .error .unknownArgument

def readArgument (level : Level) (text : String) (r : Reading) : Except UsageError Reading :=
  if r.plain then readPlain level text r
  else match text.toList with
    | ['-', '-'] => .ok { r with plain := true }
    | '-' :: '-' :: name => readLong level (String.ofList name) r
    | '-' :: c :: letters => readShort level (c :: letters) r
    | _ =>
      match r.pending with
      | some (o, none) => .ok { r with pending := some (o, some text) }
      | _ => readPlain level text r

/-- Whether an argument is looked at as a subcommand. -/
def atSubcommand (level : Level) (r : Reading) : Bool :=
  level.subcommands && !r.plain &&
    match r.pending with
    | some (_, none) => false
    | _ => true

/-- Help is given on nothing in particular or on one subcommand. -/
def helpTopic : List String → UsageError
  | [] => .help
  | [name] => if (Subcommand.ofName? name).isSome ∨ name = "help" then .help else .invalidSubcommand
  | _ => .invalidSubcommand

/-- Reads the arguments of a subcommand. -/
def readAll (level : Level) : Reading → List String → Except UsageError Reading
  | r, [] => r.settle
  | r, text :: rest => do readAll level (← readArgument level text r) rest

def finish (sub : Subcommand) (r : Reading) : Except UsageError Action :=
  match sub, r.rule with
  | .lsp, _ => .ok .serve
  | _, none => .error .missingArgument
  | .docs, some rule => .ok (.showDocumentation rule)
  | .excludeRule, some rule =>
    if r.root.isSome ∧ !r.workspace then .error .missingArgument
    else .ok (.excludeRule rule r.workspace r.root)

def readSubcommand (sub : Subcommand) (outer : Reading) (rest : List String) :
    Except UsageError Request := do
  let inner ← readAll (Level.ofSubcommand sub) {} rest
  let action ← finish sub inner
  let outer ← outer.settle
  .ok ⟨action, inner.config <|> outer.config⟩

/-- Reads the arguments up to a subcommand and those of the subcommand. -/
def readTop : Reading → List String → Except UsageError Request
  | r, [] => do
    let r ← r.settle
    .error (if r.isEmpty then .helpForMissing else .missingSubcommand)
  | r, text :: rest =>
    if atSubcommand Level.top r ∧ text = "help" then .error (helpTopic rest)
    else match (if atSubcommand Level.top r then Subcommand.ofName? text else none) with
      | some sub => readSubcommand sub r rest
      | none => do readTop (← readArgument Level.top text r) rest

def parse (arguments : List String) : Except UsageError Request := readTop {} arguments

/-- The environment variables that say where the global settings are. -/
structure Variables where
  configHome : Option String
  home : Option String

/-- The settings file of the option or else the usual one. -/
def globalFile (vars : Variables) (r : Request) : Option String :=
  r.config <|> Settings.globalPath? vars.configHome vars.home

/-- The settings files that an exclusion works on; without a root the workspace is where we are. -/
def excludeFiles (vars : Variables) (r : Request) (here : String) (inWorkspace : Bool)
    (root : Option String) : SettingsFiles :=
  ⟨globalFile vars r, if inWorkspace then some (Settings.workspacePath (root.getD here)) else none⟩

/-- What a command prints and how it exits. -/
structure Outcome where
  exit : Nat
  stdout : String
  deriving DecidableEq, Repr

def lines (texts : List String) : String := String.join (texts.map fun t => t ++ "\n")

/-- Runs a command that does not serve an editor. -/
def perform (vars : Variables) (here : String) (r : Request) : StateM Tree Outcome := do
  match r.action with
  | .serve => return ⟨0, ""⟩
  | .showDocumentation rule => return ⟨0, lines [Rule.documentation rule]⟩
  | .excludeRule rule inWorkspace root =>
    let scope := if inWorkspace then Scope.workspace else .global
    match ← ((excludeFiles vars r here inWorkspace root).store.exclude scope rule).run with
    | .ok rules => return ⟨0, lines rules⟩
    | .error _ => return ⟨1, ""⟩

/-- Help and version are no failures. -/
def UsageError.exit : UsageError → Nat
  | .help | .version => 0
  | _ => 2

end SqlLint.CommandLine
