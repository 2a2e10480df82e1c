import SqlLint.Command
import SqlLint.Rule

/-! # Running commands

Commands act on the exclusion lists and on what the editor owns: the active document, web pages,
and the linting and fixing of documents. -/
namespace SqlLint

variable (m : Type → Type)

abbrev CommandM (α : Type) := ExceptT CommandError m α

structure Workbench where
  activeDocument : CommandM m (Option String)
  openPage : String → CommandM m Unit
  lintDocument : String → CommandM m Unit
  lintProject : CommandM m Unit
  fixDocument : String → CommandM m Unit

namespace Workbench

variable {m} [Monad m]

/-- Runs on the named document or else on the active one, if there is one. -/
def onDocument (bench : Workbench m) (run : String → CommandM m Unit) (document : Option String) :
    CommandM m Unit := do
  let target ← match document with
    | some uri => pure (some uri)
    | none => bench.activeDocument
  match target with
  | some uri => run uri
  | none => pure ()

/-- Runs a command; an exclusion answers the new list. -/
def dispatch (bench : Workbench m) (exclude : Scope → String → CommandM m (List String)) :
    Command → CommandM m (Option (List String))
  | .excludeRule rule scope => some <$> exclude scope rule
  | .viewDocumentation rule => do
    bench.openPage (Rule.documentation rule)
    return none
  | .lint document => do
    bench.onDocument bench.lintDocument document
    return none
  | .lintProject => do
    if (← bench.activeDocument).isSome then bench.lintProject
    return none
  | .fix document => do
    bench.onDocument bench.fixDocument document
    return none

/-- Reads a command and runs it. -/
def execute (bench : Workbench m) (exclude : Scope → String → CommandM m (List String))
    (name : String) (arguments : List Json) : CommandM m (Option (List String)) := do
  bench.dispatch exclude (← ExceptT.mk (pure (Command.parse name arguments)))

end Workbench
end SqlLint
