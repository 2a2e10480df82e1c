import SqlLint.Assoc
import SqlLint.Decimal.Double

/-! # JSON values

An object keeps its members in the order of their keys, each key once. -/
namespace SqlLint

/-- An integer of 64 bits, with or without sign, or else a double. -/
inductive Json.Number
  | int (value : Int)
  | float (value : Double)
  deriving DecidableEq, Repr

inductive Json
  | null
  | bool (value : Bool)
  | number (value : Json.Number)
  | string (value : String)
  | array (items : List Json)
  | object (members : List (String × Json))
  deriving Repr, BEq, Inhabited

namespace Json

def mk (entries : List (String × Json)) : Json := .object (Assoc.ofList entries)

def int (value : Int) : Json := .number (.int value)

def nat (value : Nat) : Json := int value

def strings (values : List String) : Json := .array (values.map .string)

def ofOption {α : Type} (encode : α → Json) : Option α → Json
  | some a => encode a
  | none => .null

def get? (key : String) : Json → Option Json
  | .object members => members.lookup key
  | _ => none

theorem get?_mk (key : String) (entries : List (String × Json)) :
    (mk entries).get? key = entries.reverse.lookup key := Assoc.lookup_ofList key entries

def string? : Json → Option String
  | .string s => some s
  | _ => none

def bool? : Json → Option Bool
  | .bool b => some b
  | _ => none

def int? : Json → Option Int
  | .number (.int n) => some n
  | _ => none

def nat? (j : Json) : Option Nat := j.int?.map Int.toNat

def items : Json → List Json
  | .array items => items
  | _ => []

def members : Json → List (String × Json)
  | .object members => members
  | _ => []

end Json
end SqlLint
