import SqlLint.Json.Number

/-! # Outlines of JSON texts

An outline holds what a text says from left to right, up to the first place where it stops being
JSON. Numbers and strings keep their written form, so that a reader which skips them need not
care whether a number is too large or half of a surrogate pair is missing. -/
namespace SqlLint.Json

/-- A character of a string, or the 16 bits of an escape with four hexadecimal digits. -/
inductive Piece
  | char (c : Char)
  | unit (value : Nat)
  deriving DecidableEq, Repr

namespace Piece

def isHigh (n : Nat) : Bool := 0xD800 ≤ n && n < 0xDC00

def isLow (n : Nat) : Bool := 0xDC00 ≤ n && n < 0xE000

def pair (high low : Nat) : Char := Char.ofNat (0x10000 + (high - 0xD800) * 0x400 + (low - 0xDC00))

/-- The text of a string; none if it holds half of a surrogate pair. -/
def chars? : List Piece → Option (List Char)
  | [] => some []
  | .char c :: rest => (chars? rest).map (c :: ·)
  | .unit n :: rest =>
    if isHigh n then
      match rest with
      | .unit m :: rest => if isLow m then (chars? rest).map (pair n m :: ·) else none
      | _ => none
    else if isLow n then none
    else (chars? rest).map (Char.ofNat n :: ·)

def text? (pieces : List Piece) : Option String := (chars? pieces).map String.ofList

theorem chars?_char (cs : List Char) : chars? (cs.map .char) = some cs := by
  induction cs with
  | nil => rfl
  | cons c cs ih => simp [chars?, ih]

end Piece

mutual
inductive Outline
  | broken
  | null
  | bool (value : Bool)
  | number (text : NumberText)
  | string (pieces : List Piece)
  | array (items : Items)
  | object (members : Members)

/-- The items of an array up to its end or to where the text breaks. -/
inductive Items
  | broken
  | closed
  | more (item : Outline) (rest : Items)

/-- The members of an object up to its end or to where the text breaks. -/
inductive Members
  | broken
  | closed
  | more (key : List Piece) (value : Outline) (rest : Members)
end

mutual
/-- Whether the text is JSON to the end of the value. -/
def Outline.complete : Outline → Bool
  | .broken => false
  | .array items => items.complete
  | .object members => members.complete
  | _ => true

def Items.complete : Items → Bool
  | .broken => false
  | .closed => true
  | .more item rest => item.complete && rest.complete

def Members.complete : Members → Bool
  | .broken => false
  | .closed => true
  | .more _ value rest => value.complete && rest.complete
end

mutual
/-- The value, nested at most as deep as given. -/
def Outline.value? (depth : Nat) : Outline → Option Json
  | .broken => none
  | .null => some .null
  | .bool b => some (.bool b)
  | .number text => text.value?.map .number
  | .string pieces => (Piece.text? pieces).map .string
  | .array items => if depth = 0 then none else (items.values? (depth - 1)).map .array
  | .object members => if depth = 0 then none else (members.entries? (depth - 1)).map mk

def Items.values? (depth : Nat) : Items → Option (List Json)
  | .broken => none
  | .closed => some []
  | .more item rest => do
    let v ← item.value? depth
    let vs ← rest.values? depth
    some (v :: vs)

def Members.entries? (depth : Nat) : Members → Option (List (String × Json))
  | .broken => none
  | .closed => some []
  | .more key value rest => do
    let k ← Piece.text? key
    let v ← value.value? depth
    let es ← rest.entries? depth
    some ((k, v) :: es)
end

end SqlLint.Json
