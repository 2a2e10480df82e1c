import SqlLint.Assoc
import SqlLint.Decimal.Double
import SqlLint.Fault
import SqlLint.Text.Split
import SqlLint.Toml.Raw
import SqlLint.Word

/-! # Values of TOML

A written value is read from left to right; the first fault in it counts. Some numbers are written
well but stand for no value: a float beyond the greatest double, and a base without digits. -/
namespace SqlLint.Toml

/-- The meaning of a string or a word. -/
inductive Scalar
  | bool (value : Bool)
  | int (value : Int)
  | float (value : Double)
  | beyond
  | string (value : List Char)
  | date (text : List Char)
  deriving DecidableEq, Repr, Inhabited

/-- Whether a number has 64 bits. -/
def Scalar.isNarrow : Scalar → Bool
  | .beyond => false
  | .int n => Word.isSigned 64 n
  | _ => true

/-- A value; the entries of a table are in the order of their keys. -/
inductive Value
  | scalar (scalar : Scalar)
  | array (items : List Value)
  | table (entries : List (String × Value))
  deriving Repr, Inhabited

open Token (isBlank isQuote isShown)

def skipBlank (cs : List Char) : List Char := cs.dropWhile isBlank

/-- What follows a newline, with or without a carriage return. -/
def newline? : List Char → Option (List Char)
  | '\n' :: rest => some rest
  | '\r' :: '\n' :: rest => some rest
  | _ => none

/-- The characters of a part of a key without quotes. -/
def isBare (c : Char) : Bool := c.isAlphanum || c == '_' || c == '-'

def hexValue? (c : Char) : Option Nat :=
  if c.isDigit then some (c.toNat - '0'.toNat)
  else if 'a' ≤ c ∧ c ≤ 'f' then some (c.toNat - 'a'.toNat + 10)
  else if 'A' ≤ c ∧ c ≤ 'F' then some (c.toNat - 'A'.toNat + 10)
  else none

/-- The number that digits stand for in a base below 17. -/
def number? (base : Nat) (cs : List Char) : Option Nat :=
  if cs.isEmpty then none
  else cs.foldl (fun n c => do
    let n ← n
    let d ← hexValue? c
    if d < base then some (n * base + d) else none) (some 0)

/-- The character of an escape by number. -/
def scalar (digits : List Char) : Except Fault Char :=
  match number? 16 digits with
  | none => .error .malformed
  | some n => if n.isValidChar then .ok (Char.ofNat n) else .error .noScalarValue

def escaped? : Char → Option Char
  | 'b' => some '\x08'
  | 't' => some '\t'
  | 'n' => some '\n'
  | 'f' => some '\x0c'
  | 'r' => some '\r'
  | 'e' => some '\x1b'
  | '"' => some '"'
  | '\\' => some '\\'
  | _ => none

/-- The characters of a string between double quotes. In a block, newlines may stand, and a
backslash at the end of a line removes the space up to the next character. -/
def unescape (block : Bool) : Bool → List Char → Except Fault (List Char)
  | _, [] => .ok []
  | _, '\\' :: 'x' :: a :: b :: rest => do
    let c ← scalar [a, b]
    (unescape block false rest).map (c :: ·)
  | _, '\\' :: 'u' :: a :: b :: c :: d :: rest => do
    let c ← scalar [a, b, c, d]
    (unescape block false rest).map (c :: ·)
  | _, '\\' :: 'U' :: a :: b :: c :: d :: e :: f :: g :: h :: rest => do
    let c ← scalar [a, b, c, d, e, f, g, h]
    (unescape block false rest).map (c :: ·)
  | skipping, c :: rest =>
    if skipping ∧ (isBlank c ∨ c = '\n' ∨ c = '\r') then unescape block true rest
    else if c = '\\' then
      match rest with
      | [] => .error .malformed
      | e :: rest =>
        match escaped? e with
        | some c => (unescape block false rest).map (c :: ·)
        | none =>
          if block ∧ (newline? (skipBlank (e :: rest))).isSome then unescape block true rest
          else .error .malformed
    else if isShown c ∨ (block ∧ (newline? (c :: rest)).isSome) then
      (unescape block false rest).map (c :: ·)
    else .error .malformed

/-- The characters of a string between single quotes, all as they stand. -/
def verbatim (block : Bool) : List Char → Except Fault (List Char)
  | [] => .ok []
  | c :: rest =>
    if isShown c ∨ (block ∧ (newline? (c :: rest)).isSome) then (verbatim block rest).map (c :: ·)
    else .error .malformed

/-- A newline right after the opening quotes of a block does not count. -/
def dropNewline (cs : List Char) : List Char := (newline? cs).getD cs

/-- What stands between so many quotes on either side; none if they are not there. -/
def inner? (quotes : Nat) (quote : Char) (cs : List Char) : Option (List Char) :=
  if 2 * quotes ≤ cs.length ∧ (cs.drop (cs.length - quotes)).all (· == quote) then
    some ((cs.drop quotes).take (cs.length - 2 * quotes))
  else none

def orMalformed {α : Type} : Option α → Except Fault α
  | some a => .ok a
  | none => .error .malformed

/-- The characters between quotes. -/
def string (cs : List Char) : Except Fault (List Char) :=
  match cs with
  | '"' :: '"' :: '"' :: _ => do unescape true false (dropNewline (← orMalformed (inner? 3 '"' cs)))
  | '\x27' :: '\x27' :: '\x27' :: _ => do verbatim true (dropNewline (← orMalformed (inner? 3 '\x27' cs)))
  | '"' :: _ => do unescape false false (← orMalformed (inner? 1 '"' cs))
  | _ => do verbatim false (← orMalformed (inner? 1 '\x27' cs))

/-- The name that a segment of a key stands for; a block string is none. -/
def Segment.name (s : Segment) : Except Fault String :=
  match s.text with
  | [] => .error .malformed
  | a :: b :: c :: rest =>
    if isQuote a ∧ a = b ∧ b = c then .error .malformed else named (a :: b :: c :: rest)
  | cs => named cs
where
  named (cs : List Char) : Except Fault String :=
    if cs.head?.any isQuote then (string cs).map String.ofList
    else if cs.all isBare then .ok (String.ofList cs)
    else .error .malformed

/-- Digits with single underscores between them. -/
def digits? (base : Nat) (cs : List Char) : Option Nat :=
  let groups := Text.splitOn '_' cs
  if groups.all fun g => !g.isEmpty then number? base groups.flatten else none

/-- A decimal without a leading zero. -/
def decimal? (cs : List Char) : Option Nat :=
  match cs with
  | '0' :: _ :: _ => none
  | _ => digits? 10 cs

def sign : List Char → Bool × List Char
  | '-' :: rest => (true, rest)
  | '+' :: rest => (false, rest)
  | cs => (false, cs)

def isDigit (c : Char) : Bool := c.isDigit || c == '_'

/-- `digits * 10 ^ exponent` to the nearest double; none beyond the greatest one. -/
def double? (digits : Nat) (exponent : Int) : Option Magnitude :=
  if digits = 0 then some .zero
  else if 400 < exponent then none
  else if exponent < -(Nat.log2 digits : Int) - 400 then some .zero
  else Magnitude.nearest? (digits * Nat.pow 10 exponent.toNat) (Nat.pow 10 (-exponent).toNat)

/-- A number with a fraction, an exponent or both. -/
def float? (negative : Bool) (cs : List Char) : Option Scalar := do
  let whole ← decimal? (cs.takeWhile isDigit)
  let rest := cs.dropWhile isDigit
  let (fraction, rest) ← match rest with
    | '.' :: rest => do
      let ds := rest.takeWhile isDigit
      let _ ← digits? 10 ds
      some (ds.filter Char.isDigit, rest.dropWhile isDigit)
    | rest => some ([], rest)
  let exponent ← match rest with
    | [] => some (0 : Int)
    | e :: rest =>
      if e = 'e' ∨ e = 'E' then do
        let (negative, rest) := sign rest
        let n : Int := ((← digits? 10 rest) : Nat)
        some (if negative then -n else n)
      else none
  let digits := fraction.foldl (fun n c => n * 10 + (c.toNat - '0'.toNat)) whole
  match double? digits (exponent - fraction.length) with
  | some x => some (.float (.finite negative x))
  | none => some .beyond

def isLeap (year : Nat) : Bool := year % 4 == 0 && (year % 100 != 0 || year % 400 == 0)

def daysIn (year month : Nat) : Nat :=
  if month = 2 then (if isLeap year then 29 else 28)
  else if [4, 6, 9, 11].contains month then 30 else 31

/-- Whether a word has the form of a date. -/
def isDate (cs : List Char) : Bool :=
  cs.length == 10 && (cs.zip (List.range 10)).all fun p =>
    if p.2 = 4 ∨ p.2 = 7 then p.1 == '-' else p.1.isDigit

def isCalendarDate (cs : List Char) : Bool :=
  match isDate cs, number? 10 (cs.take 4), number? 10 ((cs.drop 5).take 2), number? 10 (cs.drop 8) with
  | true, some year, some month, some day =>
    1 ≤ month && month ≤ 12 && 1 ≤ day && day ≤ daysIn year month
  | _, _, _, _ => false

/-- Two digits up to a bound, and what follows them. -/
def pair? (bound : Nat) : List Char → Option (List Char)
  | a :: b :: rest => do
    let n ← number? 10 [a, b]
    if n ≤ bound then some rest else none
  | _ => none

/-- The text after a time; seconds may be left out. -/
def time? (cs : List Char) : Option (List Char) := do
  match ← pair? 23 cs with
  | ':' :: rest =>
    match ← pair? 59 rest with
    | ':' :: rest =>
      match ← pair? 60 rest with
      | '.' :: rest =>
        if (rest.takeWhile Char.isDigit).isEmpty then none else some (rest.dropWhile Char.isDigit)
      | rest => some rest
    | rest => some rest
  | _ => none

def isOffset (cs : List Char) : Bool :=
  match cs with
  | [] => true
  | ['Z'] | ['z'] => true
  | c :: rest =>
    (c == '+' || c == '-') &&
      match pair? 23 rest with
      | some (':' :: rest) => pair? 59 rest == some []
      | _ => false

/-- A time, or a date that a time and an offset may follow. -/
def isMoment (cs : List Char) : Bool :=
  if isCalendarDate (cs.take 10) then
    match cs.drop 10 with
    | [] => true
    | t :: rest => (t == 'T' || t == 't' || t == ' ') && (time? rest).any isOffset
  else time? cs == some []

def integer? (negative : Bool) (cs : List Char) : Option Int :=
  (decimal? cs).map fun n => if negative then -(n : Int) else n

/-- A number after the sign of its base; without a digit it is beyond all numbers. -/
def based? (base : Nat) (cs : List Char) : Option Scalar :=
  if cs.isEmpty then some .beyond else (digits? base cs).map fun n => .int n

/-- The meaning of a word. -/
def word? (cs : List Char) : Option Scalar :=
  let (negative, rest) := sign cs
  match cs, rest with
  | ['t', 'r', 'u', 'e'], _ => some (.bool true)
  | ['f', 'a', 'l', 's', 'e'], _ => some (.bool false)
  | _, ['i', 'n', 'f'] => some (.float (.infinite negative))
  | _, ['n', 'a', 'n'] => some (.float .nan)
  | '0' :: 'x' :: ds, _ => based? 16 ds
  | '0' :: 'o' :: ds, _ => based? 8 ds
  | '0' :: 'b' :: ds, _ => based? 2 ds
  | _, _ =>
    if isMoment cs then some (.date cs)
    else match integer? negative rest with
      | some n => some (.int n)
      | none => float? negative rest

def scalarOf (cs : List Char) : Except Fault Scalar :=
  if cs.head?.any isQuote then (string cs).map .string else orMalformed (word? cs)

end SqlLint.Toml
