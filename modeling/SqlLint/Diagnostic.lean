import SqlLint.Json.Value
import SqlLint.Report.Violation
import SqlLint.Rule
import SqlLint.Uri

/-! # Diagnostics shown by the editor -/
namespace SqlLint

def Position.toJson (p : Position) : Json :=
  .mk [("line", .nat p.line), ("character", .nat p.character)]

def Range.toJson (r : Range) : Json := .mk [("start", r.start.toJson), ("end", r.stop.toJson)]

inductive Severity | error | warning deriving DecidableEq, Repr

/-- A finding in the editor's terms; the link is left out where it would be no valid identifier. -/
structure Diagnostic where
  range : Range
  severity : Severity
  code : String
  link : Option String
  message : String
  deriving DecidableEq, Repr

namespace Diagnostic

/-- The name under which diagnostics are published. -/
def source : String := "sqlfluff"

/-- The place of a line and a column, from zero, the column in characters. -/
def place (text : List Char) (line column : Nat) : Position :=
  Position.words ⟨line, Text.unitColumn text line column⟩

/-- From the finding's start to its end or, without one, to the end of its line. -/
def rangeOf (text : List Char) (v : Violation) : Range :=
  let start := place text (v.line - 1) (v.column - 1)
  match v.stop with
  | some (line, column) => ⟨start, place text (line - 1) (column - 1)⟩
  | none => ⟨start, start.line, max (Position.word (Text.lineUnits text (v.line - 1))) start.character⟩

def ofViolation (text : List Char) (v : Violation) : Diagnostic where
  range := rangeOf text v
  severity := if v.warning then .warning else .error
  code := v.code
  link := (Uri.parse? (Rule.documentation v.code)).map Uri.text
  message := v.description

def toJson (d : Diagnostic) : Json :=
  .mk <| [("range", d.range.toJson),
    ("severity", .nat (match d.severity with | .error => 1 | .warning => 2)),
    ("code", .string d.code), ("source", .string source), ("message", .string d.message)] ++
    (d.link.map fun link => ("codeDescription", Json.mk [("href", .string link)])).toList

end Diagnostic
end SqlLint
