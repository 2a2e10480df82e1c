import SqlLint.Proofs.Json.Grammar
import SqlLint.Report.Reader
import Mathlib.Data.Nat.Digits.Defs

/-! # How the linter writes a report

A report is an array of files, a file an object with its path and its findings, a finding an object with its rule
and its place. Members come in any order, and members of other names may come with them. What is not known is left
out or null. -/
namespace SqlLint
open Json

namespace Json

/-- The members of an object, by the names that their keys denote. -/
inductive Members.Hold : Members → List (String × Outline) → Prop
  | closed : Hold .closed []
  | more {key : List Piece} {value : Outline} {rest : Members} {name : String} {entries : List (String × Outline)}
    (named : Piece.Denotes key name.toList) (h : Hold rest entries) :
    Hold (.more key value rest) ((name, value) :: entries)

/-- The items of an array, each of which stands for something. -/
inductive Items.Hold {α : Type} (stands : Outline → α → Prop) : Items → List α → Prop
  | closed : Hold stands .closed []
  | more {item : Outline} {rest : Items} {a : α} {as : List α} (first : stands item a) (h : Hold stands rest as) :
    Hold stands (.more item rest) (a :: as)

namespace Outline

def IsText (o : Outline) (s : String) : Prop := ∃ ps, o = .string ps ∧ Piece.Denotes ps s.toList

/-- A natural number in decimal digits. -/
def IsNatural (o : Outline) (n : Nat) : Prop :=
  ∃ ds, o = .number ⟨false, ds, [], none⟩ ∧ Nat.ofDigits 10 ds.reverse = n

def IsArray {α : Type} (stands : Outline → α → Prop) (o : Outline) (as : List α) : Prop :=
  ∃ items, o = .array items ∧ items.Hold stands as

def IsObject (holds : List (String × Outline) → Prop) (o : Outline) : Prop :=
  ∃ members entries, o = .object members ∧ members.Hold entries ∧ holds entries

/-- What was found stands for something, or where there is nothing, it is null if it is there at all. -/
def Stands {α : Type} (stands : Outline → α → Prop) (found : Option Outline) : Option α → Prop
  | some a => ∃ o, found = some o ∧ stands o a
  | none => found = none ∨ found = some .null

end Outline
end Json

namespace Violation
open Outline

/-- Lines and columns start from one, and a name is not empty. -/
structure IsProper (v : Violation) : Prop where
  line : 1 ≤ v.line
  column : 1 ≤ v.column
  name : v.name ≠ some ""

/-- The numbers are words. -/
structure IsNarrow (v : Violation) : Prop where
  line : v.line < Word.size 64
  column : v.column < Word.size 64
  stop : ∀ stop ∈ v.stop, stop.1 < Word.size 64 ∧ stop.2 < Word.size 64

/-- The members of a place. -/
structure Placed (startLine startColumn stopLine stopColumn line column : Option Nat)
    (entries : List (String × Outline)) : Prop where
  startLine : Stands IsNatural (entries.lookup "start_line_no") startLine
  startColumn : Stands IsNatural (entries.lookup "start_line_pos") startColumn
  stopLine : Stands IsNatural (entries.lookup "end_line_no") stopLine
  stopColumn : Stands IsNatural (entries.lookup "end_line_pos") stopColumn
  line : Stands IsNatural (entries.lookup "line_no") line
  column : Stands IsNatural (entries.lookup "line_pos") column

/-- The members of a finding. Its place is given by a start and perhaps an end or, if it has no end, by a line and a
column alone. What is no warning need not say so. -/
structure Written (v : Violation) (entries : List (String × Outline)) : Prop where
  once : ∀ key ∈ Report.ViolationFields.fields, (entries.map Prod.fst).count key ≤ 1
  code : Stands IsText (entries.lookup "code") (some v.code)
  description : Stands IsText (entries.lookup "description") (some v.description)
  name : Stands IsText (entries.lookup "name") v.name
  place :
    Placed (some v.line) (some v.column) (v.stop.map Prod.fst) (v.stop.map Prod.snd) none none entries ∨
      (v.stop = none ∧ Placed none none none none (some v.line) (some v.column) entries)
  warning : entries.lookup "warning" = some (.bool v.warning) ∨
    (entries.lookup "warning" = none ∧ v.warning = false)

end Violation

/-- The members of a file. -/
structure FileReport.Written (f : FileReport) (entries : List (String × Outline)) : Prop where
  once : ∀ key ∈ Report.FileFields.fields, (entries.map Prod.fst).count key ≤ 1
  path : Outline.Stands Outline.IsText (entries.lookup "filepath") (some f.path)
  violations : Outline.Stands (Outline.IsArray fun o v => o.IsObject (Violation.Written v))
    (entries.lookup "violations") (some f.violations)

/-- A text that is a report of files in the linter's format. -/
def Report.IsWritten (files : List FileReport) (text : List Char) : Prop :=
  ∃ o : Outline, o.SpelledText text ∧ o.IsArray (fun o f => o.IsObject (FileReport.Written f)) files

end SqlLint
