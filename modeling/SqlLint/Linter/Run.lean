import SqlLint.Files.Tree
import SqlLint.Linter.Arguments
import SqlLint.Report.Reader

/-! # Runs of the linter

The linter is a program that gets arguments, a working directory and a text, and prints a reply in
some time. It exits with a failure when it finds something, so only a failure without output is
one. -/
namespace SqlLint

inductive LinterError
  | spawnFailed (detail : String)
  | nonZeroExit (code : Int) (stderr : String)
  | timeout
  | io (detail : String)
  | parse (detail : String)
  deriving DecidableEq, Repr

def LinterError.message : LinterError → String
  | .spawnFailed detail => "failed to spawn sqlfluff: " ++ detail
  | .nonZeroExit code stderr => "sqlfluff exited with code " ++ toString code ++ ": " ++ stderr
  | .timeout => "sqlfluff timed out"
  | .io detail => "sqlfluff I/O error: " ++ detail
  | .parse detail => "failed to parse sqlfluff output: " ++ detail

/-- How a program ended: with a code or by a signal. -/
inductive Exit | code (value : Int) | signal deriving DecidableEq, Repr

/-- All that a run can come to: what the program prints, how it ends and how long it takes for that
after it has got its input, and what goes wrong when the input is written to it or its output is
read. -/
structure Reply where
  stdout : Content := .text ""
  stderr : Content := .text ""
  exit : Exit := .code 0
  milliseconds : Nat := 0
  inputFault : Option String := none
  outputFault : Option String := none
  deriving DecidableEq, Repr

/-- What a program is called with: without an input it reads nothing. -/
structure Call where
  executable : String
  arguments : List String
  directory : Option String
  input : Option String
  deriving DecidableEq, Repr

/-- One run, and the seconds that it may take. -/
structure Invocation extends Call where
  limit : Option Nat
  deriving DecidableEq, Repr

/-- The programs that can be called by their names, and what each call of a program comes to. -/
structure Programs where
  names : List String
  reply : Call → Reply

namespace Invocation

/-- The tree as it is seen from the run's working directory. -/
def enter (i : Invocation) (t : Tree) : Except IoError Tree :=
  match i.directory with
  | none => .ok t
  | some path => do
    match ← t.find path with
    | .directory access =>
      if access = .hidden then throw .permissionDenied
      return { t with here := ← t.locate path }
    | .file .. => .error .notDirectory

/-- Why the program cannot be started, if so. A name with a slash is the path of a file that can be
run, and another name is looked up among the programs. -/
def obstacle? (programs : Programs) (t : Tree) (i : Invocation) : Option String :=
  if (i.executable :: i.arguments ++ i.directory.toList).any fun s => s.toList.contains '\x00' then
    some "nul byte found in provided data"
  else match i.enter t with
    | .error e => some e.message
    | .ok t =>
      if i.executable.toList.contains '/' then
        match t.find i.executable with
        | .ok (.file _ _ true) => none
        | .ok _ => some IoError.permissionDenied.message
        | .error e => some e.message
      else if i.executable = "." ∨ i.executable = ".." then some IoError.permissionDenied.message
      else if Tree.nameLimit < i.executable.utf8ByteSize then some IoError.nameTooLong.message
      else if programs.names.contains i.executable then none
      else some IoError.notFound.message

def isOverdue (i : Invocation) (r : Reply) : Bool :=
  i.limit.any fun seconds => 1000 * seconds < r.milliseconds

/-- What breaks off a run that has been started, if so. -/
def breakdown? (i : Invocation) (r : Reply) : Option LinterError :=
  match i.input, r.inputFault with
  | some _, some detail => some (.io detail)
  | _, _ => if i.isOverdue r then some .timeout else r.outputFault.map .io

end Invocation

namespace Linter

/-- The seconds that a run may take: as many as it needs where the settings say 0. -/
def limit (s : Settings) : Option Nat := if s.timeout = 0 then none else some s.timeout

def invocation (s : Settings) (arguments : List String) (input directory : Option String) : Invocation :=
  ⟨⟨s.executablePath, arguments, s.workingDirectory <|> directory, input⟩, limit s⟩

def lintInvocation (s : Settings) (text : String) (file directory : Option String) : Invocation :=
  invocation s (lintArguments s file) (some text) directory

def fixInvocation (s : Settings) (text : String) (file directory : Option String) : Invocation :=
  invocation s (fixArguments s file) (some text) directory

def pathInvocation (s : Settings) (path : String) (directory : Option String) : Invocation :=
  invocation s (pathArguments s path) none directory

def isBlank (text : String) : Bool := text.toList.all Text.isBlank

/-- The output of a run. -/
def output (r : Reply) : Except LinterError String :=
  let stdout := r.stdout.lossy
  if r.exit ≠ .code 0 ∧ isBlank stdout then
    .error (.nonZeroExit (match r.exit with | .code n => n | .signal => -1) r.stderr.lossy)
  else .ok stdout

/-- What becomes of a run: the output of the program, if it can be started and nothing breaks it
off. -/
def run (programs : Programs) (t : Tree) (i : Invocation) : Except LinterError String :=
  match i.obstacle? programs t with
  | some detail => .error (.spawnFailed (i.executable ++ ": " ++ detail))
  | none =>
    let reply := programs.reply i.toCall
    match i.breakdown? reply with
    | some e => .error e
    | none => output reply

def reports (output : String) : Except LinterError (List FileReport) :=
  match Report.parse output with
  | .ok files => .ok files
  | .error f => .error (.parse ("invalid sqlfluff JSON: " ++ f.message))

/-- The findings of all files together. -/
def violations (output : String) : Except LinterError (List Violation) :=
  (reports output).map fun files => files.flatMap FileReport.violations

end Linter
end SqlLint
