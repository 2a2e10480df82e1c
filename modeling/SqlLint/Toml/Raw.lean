import SqlLint.Toml.Token

/-! # Written forms of TOML data

The parts of a text as they are written, with the blanks and comments on either side: what a string,
a word or a key means is not yet known. A key and a scalar may be empty here; whether they may be is
a question of their meaning. -/
namespace SqlLint.Toml

/-- A part of a key, its quotes included, and what stands between it and its neighbours. -/
structure Segment where
  before : List Char := []
  text : List Char := []
  after : List Char := []
  deriving DecidableEq, Repr

abbrev Key := List Segment

/-- A value. What stands between the last item and the closing bracket is the rest; it starts with a
comma if one follows the last item. -/
inductive Raw
  | scalar (before text after : List Char)
  | array (before : List Char) (items : List Raw) (rest after : List Char)
  | table (before : List Char) (entries : List (Key × Raw)) (rest after : List Char)
  deriving Repr, Inhabited

/-- An entry or a header. What stands in front of it is part of the first segment of an entry's key. -/
inductive Line
  | entry (key : Key) (value : Raw)
  | header (lead : List Char) (repeated : Bool) (key : Key) (tail : List Char)
  deriving Repr

/-- A text cut into lines, and what follows the last one. -/
structure Source where
  lines : List Line
  rest : List Char
  deriving Repr

namespace Token

/-- The blanks in front. -/
def takeBlanks : List Token → List Char × List Token
  | .blank text :: rest => (text ++ (takeBlanks rest).1, (takeBlanks rest).2)
  | ts => ([], ts)

/-- The blanks, newlines and comments in front. -/
def takeSpace : List Token → List Char × List Token
  | .blank text :: rest => (text ++ (takeSpace rest).1, (takeSpace rest).2)
  | .newline text :: rest => (text ++ (takeSpace rest).1, (takeSpace rest).2)
  | .comment text :: rest => (text ++ (takeSpace rest).1, (takeSpace rest).2)
  | ts => ([], ts)

/-- The blanks in front and a comment. -/
def takeTail (ts : List Token) : List Char × List Token :=
  match takeBlanks ts with
  | (blanks, .comment text :: rest) => (blanks ++ text, rest)
  | p => p

/-- Segments with points between them, behind a part of the first one. -/
def takeSegments (segment : Segment) (named : Bool) : List Token → Key × List Token
  | .blank text :: rest =>
    if named then takeSegments { segment with after := segment.after ++ text } true rest
    else takeSegments { segment with before := segment.before ++ text } false rest
  | .string text :: rest =>
    if named then ([segment], .string text :: rest)
    else takeSegments { segment with text := text } true rest
  | .word text :: rest =>
    if named then ([segment], .word text :: rest)
    else takeSegments { segment with text := text } true rest
  | .mark '.' :: rest =>
    let p := takeSegments {} false rest
    (segment :: p.1, p.2)
  | ts => ([segment], ts)

/-- A key that follows a given text. -/
def takeKey (before : List Char) (ts : List Token) : Key × List Token :=
  takeSegments { before := before } false ts

/-- A key with more text behind it. -/
def extend (more : List Char) : Key → Key
  | [] => []
  | [segment] => [{ segment with after := segment.after ++ more }]
  | segment :: key => segment :: extend more key

/-- The words and points of a scalar, with the blanks between them. -/
def takeScalar : List Token → List Char × List Token
  | .word text :: rest => (text ++ (takeScalar rest).1, (takeScalar rest).2)
  | .mark '.' :: rest => ('.' :: (takeScalar rest).1, (takeScalar rest).2)
  | .blank blanks :: .word text :: rest =>
    (blanks ++ text ++ (takeScalar rest).1, (takeScalar rest).2)
  | .blank blanks :: .mark '.' :: rest =>
    (blanks ++ '.' :: (takeScalar rest).1, (takeScalar rest).2)
  | ts => ([], ts)

/-- How deep arrays and inline tables may be nested. -/
def nestingLimit : Nat := 80

/-- A comma behind the items, unless items follow. -/
def restOf {α : Type} (items : List α) (rest : List Char) : List Char :=
  if items.isEmpty then ',' :: rest else rest

mutual
/-- A value, with at most so many brackets to open. Inside of brackets newlines and comments may
stand on either side; elsewhere a comment may follow. -/
def takeValue (inside : Bool) : Nat → Nat → List Token → Option (Raw × List Token)
  | 0, _, _ => none
  | fuel + 1, depth, ts =>
    let (before, ts) := if inside then takeSpace ts else takeBlanks ts
    let close (ts : List Token) := if inside then takeSpace ts else takeTail ts
    match ts with
    | .string text :: rest => some (.scalar before text (close rest).1, (close rest).2)
    | .mark '[' :: rest => do
      if depth = 0 then none
      let (items, left, rest) ← takeItems fuel (depth - 1) rest
      some (.array before items left (close rest).1, (close rest).2)
    | .mark '\x7b' :: rest => do
      if depth = 0 then none
      let (entries, left, rest) ← takeEntries fuel (depth - 1) rest
      some (.table before entries left (close rest).1, (close rest).2)
    | .mark ',' :: _ => none
    | .mark '=' :: _ => none
    | .mark ']' :: _ => none
    | ts =>
      let (text, rest) := takeScalar ts
      some (.scalar before text (close rest).1, (close rest).2)

/-- The items of an array, the rest and its closing bracket. -/
def takeItems : Nat → Nat → List Token → Option (List Raw × List Char × List Token)
  | 0, _, _ => none
  | fuel + 1, depth, ts =>
    match takeSpace ts with
    | (space, .mark ']' :: rest) => some ([], space, rest)
    | _ => do
      match ← takeValue true fuel depth ts with
      | (item, .mark ']' :: rest) => some ([item], [], rest)
      | (item, .mark ',' :: rest) =>
        let (items, left, rest) ← takeItems fuel depth rest
        some (item :: items, restOf items left, rest)
      | _ => none

/-- The entries of an inline table, the rest and its closing bracket. Newlines and comments may stand
also around an equals sign. The last key may lack its value; then the value is empty. -/
def takeEntries : Nat → Nat → List Token → Option (List (Key × Raw) × List Char × List Token)
  | 0, _, _ => none
  | fuel + 1, depth, ts =>
    match takeSpace ts with
    | (space, .mark '\x7d' :: rest) => some ([], space, rest)
    | (space, ts) => do
      let (key, ts) := takeKey space ts
      match takeSpace ts with
      | (space, .mark '=' :: rest) =>
        match ← takeValue true fuel depth rest with
        | (value, .mark '\x7d' :: rest) => some ([(extend space key, value)], [], rest)
        | (value, .mark ',' :: rest) =>
          let (entries, left, rest) ← takeEntries fuel depth rest
          some ((extend space key, value) :: entries, restOf entries left, rest)
        | _ => none
      | (space, .mark '\x7d' :: rest) =>
        some ([(extend space key, .scalar [] [] [])], [], rest)
      | _ => none
end

/-- The value of an entry. Each bracket and each item takes a unit of fuel, and both are tokens. -/
def value? (ts : List Token) : Option (Raw × List Token) :=
  takeValue false (2 * ts.length + 2) nestingLimit ts

/-- Whether a key lacks its last name. -/
def isOpen (key : Key) : Bool := (key.getLast?.map Segment.text).all List.isEmpty

/-- What follows the line. -/
def dropLine : List Token → List Token
  | .newline text :: rest => .newline text :: rest
  | _ :: rest => dropLine rest
  | [] => []

/-- A header behind its first bracket: one bracket on either side, or two for a table that may be
repeated. Behind a key that lacks its last name the rest of the line does not matter. -/
def header? (lead : List Char) (ts : List Token) : Option (Line × List Token) :=
  let (repeated, ts) := match ts with
    | .mark '[' :: ts => (true, ts)
    | ts => (false, ts)
  match repeated, takeKey [] ts with
  | true, (key, .mark ']' :: .mark ']' :: rest) =>
    some (.header lead true key (takeTail rest).1, (takeTail rest).2)
  | false, (key, .mark ']' :: rest) =>
    some (.header lead false key (takeTail rest).1, (takeTail rest).2)
  | _, (_, .mark ']' :: _) => none
  | _, (key, rest) => if isOpen key then some (.header lead repeated key [], dropLine rest) else none

def entry? (lead : List Char) (ts : List Token) : Option (Line × List Token) :=
  match takeKey lead ts with
  | (key, .mark '=' :: rest) => (value? rest).map fun p => (.entry key p.1, p.2)
  | _ => none

/-- Lines, each with what stands in front of it, and what follows the last one. -/
def takeLines : Nat → List Token → Option (List Line × List Char)
  | 0, _ => none
  | fuel + 1, ts =>
    match takeSpace ts with
    | (lead, []) => some ([], lead)
    | (lead, t :: ts) => do
      let (line, rest) ← if t = .mark '[' then header? lead ts else entry? lead (t :: ts)
      match rest with
      | [] => some ([line], [])
      | .newline _ :: rest =>
        let (lines, rest) ← takeLines fuel rest
        some (line :: lines, rest)
      | _ => none

/-- The characters that may stand in comments and, quotes and backslashes apart, in strings. -/
def isShown (c : Char) : Bool := c == '\t' || (' ' ≤ c && c != '\x7f')

/-- Whether a comment shows all its characters and a carriage return precedes a newline. -/
def isSound : Token → Bool
  | .newline text => text != ['\r']
  | .comment text => text.all isShown
  | _ => true

/-- A newline without its carriage return; strings and comments stay as they are. -/
def unify : Token → Token
  | .newline _ => .newline ['\n']
  | t => t

end Token

namespace Source

/-- A byte order mark in front of the text does not count. -/
def dropMark : List Char → List Char
  | '\ufeff' :: rest => rest
  | cs => cs

/-- The lines of a text; none if its brackets, commas and equals signs are out of place. -/
def read? (text : List Char) : Option Source :=
  let ts := Token.ofText (dropMark text)
  if ts.all Token.isSound then
    (Token.takeLines (ts.length + 1) (ts.map Token.unify)).map fun p => ⟨p.1, p.2⟩
  else none

end Source
end SqlLint.Toml
