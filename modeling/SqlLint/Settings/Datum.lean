import SqlLint.Json.Printer
import SqlLint.Fault

/-! # Data of a settings source

What a settings file or the editor gives, before the keys are looked at. The entries of a table are
in the order of their keys, and a number may be beyond all that can be held. -/
namespace SqlLint

inductive Datum
  | null
  | bool (value : Bool)
  | int (value : Int)
  | float (value : Double)
  | beyond
  | text (value : String)
  | date
  | list (items : List Datum)
  | table (entries : List (String × Datum))
  deriving Repr, Inhabited

/-- The languages that settings are written in. -/
inductive Format | json | toml deriving DecidableEq, Repr

namespace Datum

mutual
def ofJson : Json → Datum
  | .null => .null
  | .bool b => .bool b
  | .number (.int n) => .int n
  | .number (.float x) => .float x
  | .string s => .text s
  | .array items => .list (ofJsonItems items)
  | .object members => .table (ofJsonMembers members)

def ofJsonItems : List Json → List Datum
  | [] => []
  | j :: rest => ofJson j :: ofJsonItems rest

def ofJsonMembers : List (String × Json) → List (String × Datum)
  | [] => []
  | (k, v) :: rest => (k, ofJson v) :: ofJsonMembers rest
end

/-- A settings file writes every double with all its digits. -/
def floatStyle : Format → FloatStyle
  | .json => Json.floatStyle
  | .toml => ⟨-400, 400⟩

def found (format : Format) : Datum → Found
  | .null => .null
  | .bool b => .bool b
  | .int n => .int n
  | .float x => .float (String.ofList (x.write (floatStyle format)))
  | .beyond => .float "inf"
  | .text s => .string s
  | .date => .map
  | .list _ => .sequence
  | .table _ => .map

end Datum
end SqlLint
