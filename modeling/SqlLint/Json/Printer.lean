import SqlLint.Json.Value
import SqlLint.Decimal.Shortest

/-! # Writing JSON -/
namespace SqlLint.Json

def hexDigit (n : Nat) : Char := Nat.digitChar (n % 16)

/-- A character of a string: quote, backslash and control characters are escaped. -/
def writeChar (c : Char) : List Char :=
  if c = '"' then ['\\', '"']
  else if c = '\\' then ['\\', '\\']
  else if c = '\n' then ['\\', 'n']
  else if c = '\r' then ['\\', 'r']
  else if c = '\t' then ['\\', 't']
  else if c = '\x08' then ['\\', 'b']
  else if c = '\x0c' then ['\\', 'f']
  else if c < ' ' then ['\\', 'u', '0', '0', hexDigit (c.toNat / 16), hexDigit c.toNat]
  else [c]

def writeString (s : String) : List Char := '"' :: s.toList.flatMap writeChar ++ ['"']

/-- Doubles are written with all their digits from `1e-5` to below `1e16`. -/
def floatStyle : FloatStyle := ⟨-5, 15⟩

def Number.write : Number → List Char
  | .int n => (if n < 0 then ['-'] else []) ++ Decimal.text n.natAbs
  | .float x => x.write floatStyle

mutual
def write : Json → List Char
  | .null => ['n', 'u', 'l', 'l']
  | .bool true => ['t', 'r', 'u', 'e']
  | .bool false => ['f', 'a', 'l', 's', 'e']
  | .number n => n.write
  | .string s => writeString s
  | .array items => '[' :: writeItems items ++ [']']
  | .object members => '\x7b' :: writeMembers members ++ ['\x7d']

def writeItems : List Json → List Char
  | [] => []
  | [j] => write j
  | j :: rest => write j ++ ',' :: writeItems rest

def writeMembers : List (String × Json) → List Char
  | [] => []
  | [(k, v)] => writeString k ++ ':' :: write v
  | (k, v) :: rest => writeString k ++ ':' :: write v ++ ',' :: writeMembers rest
end

/-- The text of a value without blanks. -/
def render (j : Json) : String := String.ofList j.write

end SqlLint.Json
