import SqlLint.Json.Outline

/-! # Reading JSON -/
namespace SqlLint.Json

def isBlank (c : Char) : Bool := c == ' ' || c == '\t' || c == '\n' || c == '\r'

def skipBlank (cs : List Char) : List Char := cs.dropWhile isBlank

def digitValue (c : Char) : Nat := c.toNat - '0'.toNat

def hexValue? (c : Char) : Option Nat :=
  if '0' ≤ c ∧ c ≤ '9' then some (c.toNat - '0'.toNat)
  else if 'a' ≤ c ∧ c ≤ 'f' then some (c.toNat - 'a'.toNat + 10)
  else if 'A' ≤ c ∧ c ≤ 'F' then some (c.toNat - 'A'.toNat + 10)
  else none

def hexValues? (cs : List Char) : Option Nat :=
  cs.foldl (fun n c => n.bind fun n => (hexValue? c).map (n * 16 + ·)) (some 0)

/-- The character that a single letter escapes. -/
def escaped? : Char → Option Char
  | '"' => some '"'
  | '\\' => some '\\'
  | '/' => some '/'
  | 'b' => some '\x08'
  | 'f' => some '\x0c'
  | 'n' => some '\n'
  | 'r' => some '\r'
  | 't' => some '\t'
  | _ => none

/-- The pieces of a string after its opening quote, and what follows the closing one. -/
def readString : List Char → Option (List Piece × List Char)
  | [] => none
  | '\\' :: 'u' :: a :: b :: c :: d :: rest => do
    let n ← hexValues? [a, b, c, d]
    let (pieces, rest) ← readString rest
    some (.unit n :: pieces, rest)
  | '\\' :: e :: rest => do
    let c ← escaped? e
    let (pieces, rest) ← readString rest
    some (.char c :: pieces, rest)
  | '"' :: rest => some ([], rest)
  | c :: rest =>
    if c = '\\' ∨ c < ' ' then none else do
      let (pieces, rest) ← readString rest
      some (.char c :: pieces, rest)

def readDigits (cs : List Char) : List Nat × List Char :=
  ((cs.takeWhile Char.isDigit).map digitValue, cs.dropWhile Char.isDigit)

/-- The digits after a point; without a point there are none. -/
def readFraction : List Char → Option (List Nat × List Char)
  | '.' :: rest =>
    let (ds, rest) := readDigits rest
    if ds.isEmpty then none else some (ds, rest)
  | cs => some ([], cs)

def readSign : List Char → Bool × List Char
  | '-' :: rest => (true, rest)
  | '+' :: rest => (false, rest)
  | cs => (false, cs)

def readExponent : List Char → Option (Option (Bool × List Nat) × List Char)
  | c :: rest =>
    if c = 'e' ∨ c = 'E' then
      let (negative, rest) := readSign rest
      let (ds, rest) := readDigits rest
      if ds.isEmpty then none else some (some (negative, ds), rest)
    else some (none, c :: rest)
  | [] => some (none, [])

/-- A number after its sign: no digit follows a leading zero. -/
def readNumber (negative : Bool) (cs : List Char) : Option (NumberText × List Char) :=
  let (whole, rest) := readDigits cs
  match whole with
  | [] | 0 :: _ :: _ => none
  | _ => do
    let (fraction, rest) ← readFraction rest
    let (exponent, rest) ← readExponent rest
    some (⟨negative, whole, fraction, exponent⟩, rest)

def outlineOf {α : Type} (build : α → Outline) : Option (α × List Char) → Outline × List Char
  | some (a, rest) => (build a, rest)
  | none => (.broken, [])

mutual
/-- The outline of the value at the head of the text, and what follows the value. -/
def readValue : Nat → List Char → Outline × List Char
  | 0, _ => (.broken, [])
  | fuel + 1, cs =>
    match skipBlank cs with
    | 'n' :: 'u' :: 'l' :: 'l' :: rest => (.null, rest)
    | 't' :: 'r' :: 'u' :: 'e' :: rest => (.bool true, rest)
    | 'f' :: 'a' :: 'l' :: 's' :: 'e' :: rest => (.bool false, rest)
    | '"' :: rest => outlineOf .string (readString rest)
    | '-' :: rest => outlineOf .number (readNumber true rest)
    | '[' :: rest =>
      match skipBlank rest with
      | ']' :: rest => (.array .closed, rest)
      | rest =>
        let (items, rest) := readItems fuel rest
        (.array items, rest)
    | '\x7b' :: rest =>
      match skipBlank rest with
      | '\x7d' :: rest => (.object .closed, rest)
      | rest =>
        let (members, rest) := readMembers fuel rest
        (.object members, rest)
    | c :: rest => if c.isDigit then outlineOf .number (readNumber false (c :: rest)) else (.broken, [])
    | [] => (.broken, [])

def readItems : Nat → List Char → Items × List Char
  | 0, _ => (.broken, [])
  | fuel + 1, cs =>
    let (item, rest) := readValue fuel cs
    match skipBlank rest with
    | ']' :: rest => (.more item .closed, rest)
    | ',' :: rest =>
      let (items, rest) := readItems fuel rest
      (.more item items, rest)
    | _ => (.more item .broken, [])

def readMembers : Nat → List Char → Members × List Char
  | 0, _ => (.broken, [])
  | fuel + 1, cs =>
    match skipBlank cs with
    | '"' :: rest =>
      match readString rest with
      | none => (.broken, [])
      | some (key, rest) =>
        match skipBlank rest with
        | ':' :: rest =>
          let (value, rest) := readValue fuel rest
          match skipBlank rest with
          | '\x7d' :: rest => (.more key value .closed, rest)
          | ',' :: rest =>
            let (members, rest) := readMembers fuel rest
            (.more key value members, rest)
          | _ => (.more key value .broken, [])
        | _ => (.more key .broken .broken, [])
    | _ => (.broken, [])
end

/-- The outline of a whole text, and whether only blanks follow its value. -/
def outline (text : List Char) : Outline × Bool :=
  let (value, rest) := readValue (2 * text.length + 2) text
  (value, (skipBlank rest).isEmpty)

/-- The greatest depth to which arrays and objects may be nested. -/
def nestingLimit : Nat := 127

/-- The value of a text that is JSON. -/
def parse? (text : String) : Option Json :=
  let (value, ended) := outline text.toList
  if ended then value.value? nestingLimit else none

end SqlLint.Json
