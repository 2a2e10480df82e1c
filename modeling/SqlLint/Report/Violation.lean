import SqlLint.Text.Position

/-! # Violations of rules -/
namespace SqlLint

/-- A finding of the linter. Lines and columns start from one, columns count characters. -/
structure Violation where
  code : String
  description : String
  name : Option String
  line : Nat
  column : Nat
  stop : Option (Nat × Nat)
  warning : Bool
  deriving DecidableEq, Repr

/-- The findings in one file, by the path that the linter printed. -/
structure FileReport where
  path : String
  violations : List Violation
  deriving DecidableEq, Repr

namespace Violation

/-- Whether a place comes before another one, by line and then by column. -/
def before (a b : Nat × Nat) : Bool := a.1 < b.1 || (a.1 == b.1 && a.2 < b.2)

def start (v : Violation) : Nat × Nat := (v.line - 1, v.column - 1)

/-- Whether a line and a column, from zero, fall on the finding. Without an end it covers the rest
of its line; an empty finding covers the one place where it stands. -/
def contains (v : Violation) (line column : Nat) : Bool :=
  match v.stop with
  | some (stopLine, stopColumn) =>
    let stop := (stopLine - 1, stopColumn - 1)
    !before (line, column) v.start &&
      (before (line, column) stop || ((line, column) == v.start && v.start == stop))
  | none => line == v.start.1 && v.start.2 ≤ column

end Violation
end SqlLint
