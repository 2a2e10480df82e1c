/-! # The grammar of identifiers

The grammar of RFC 3986, a scheme included. A text is read from left to right, and the first place at
which it cannot be read further counts as its flaw. -/
namespace SqlLint.Uri

/-- What is wrong at a place: a percent sign without its digits, a character that may not stand there
or is missing, or a numerical address. -/
inductive Flaw
  | code
  | character
  | address
  deriving DecidableEq, Repr

/-- A flaw and the text from its place on. -/
structure Stop where
  flaw : Flaw
  rest : List Char
  deriving DecidableEq, Repr

/-- What a reader leaves of a text. -/
abbrev Left := Except Stop (List Char)

def unexpected {α : Type} (rest : List Char) : Except Stop α := .error ⟨.character, rest⟩

def isHex (c : Char) : Bool := c.isDigit || ('a' ≤ c && c ≤ 'f') || ('A' ≤ c && c ≤ 'F')

def isUnreserved (c : Char) : Bool := c.isAlphanum || ['-', '.', '_', '~'].contains c

def isSubDelimiter (c : Char) : Bool :=
  ['!', '$', '&', '\x27', '(', ')', '*', '+', ',', ';', '='].contains c

def inScheme (c : Char) : Bool := c.isAlphanum || ['+', '-', '.'].contains c

def inHost (c : Char) : Bool := isUnreserved c || isSubDelimiter c

def inUser (c : Char) : Bool := inHost c || c == ':'

def inPath (c : Char) : Bool := inUser c || c == '@' || c == '/'

def inQuery (c : Char) : Bool := inPath c || c == '?'

/-- The allowed characters and percent codes in front, and what follows them. -/
def take (allowed : Char → Bool) : List Char → Except Stop (List Char × List Char)
  | [] => .ok ([], [])
  | '%' :: a :: b :: rest =>
    if isHex a && isHex b then (take allowed rest).map fun p => ('%' :: a :: b :: p.1, p.2)
    else .error ⟨.code, '%' :: a :: b :: rest⟩
  | c :: rest =>
    if c = '%' then .error ⟨.code, c :: rest⟩
    else if allowed c then (take allowed rest).map fun p => (c :: p.1, p.2)
    else .ok ([], c :: rest)

/-- Nothing of a text is lost. -/
theorem append_of_take {allowed : Char → Bool} {cs : List Char} {p : List Char × List Char}
    (h : take allowed cs = .ok p) : p.1 ++ p.2 = cs := by
  fun_induction take allowed cs generalizing p with
  | case1 => cases h; rfl
  | case2 a b rest _ ih =>
    cases hr : take allowed rest with
    | error _ => simp [hr, Except.map] at h
    | ok q =>
      rw [hr] at h
      cases h
      simp [ih hr]
  | case3 => cases h
  | case4 => cases h
  | case5 c rest _ _ _ ih =>
    cases hr : take allowed rest with
    | error _ => simp [hr, Except.map] at h
    | ok q =>
      rw [hr] at h
      cases h
      simp [ih hr]
  | case6 => cases h; rfl

def skip (allowed : Char → Bool) (cs : List Char) : Left := (take allowed cs).map Prod.snd

/-- The number that decimal digits stand for. -/
def decimal (digits : List Char) : Nat := digits.foldl (fun n c => n * 10 + (c.toNat - '0'.toNat)) 0

/-- A number below 256 without leading zeros. -/
def octet? (cs : List Char) : Option (List Char) :=
  match cs with
  | '0' :: rest => some rest
  | _ =>
    let digits := (cs.take 3).takeWhile Char.isDigit
    if !digits.isEmpty && decimal digits < 256 then some (cs.drop digits.length) else none

/-- A number behind a point. -/
def dotted? : List Char → Option (List Char)
  | '.' :: rest => octet? rest
  | _ => none

/-- Four numbers with points between them. -/
def address4? (cs : List Char) : Option (List Char) := do
  dotted? (← dotted? (← dotted? (← octet? cs)))

/-- A piece of an address of eight groups: a group or the start of four numbers, either with or without
a colon in front; two colons; or a lone colon. -/
inductive Piece
  | group (colon : Bool)
  | numbers (colon : Bool)
  | gap
  | colon
  deriving DecidableEq, Repr

/-- The piece in front, if there is one. The colon in front of four numbers is passed, they are not. -/
def piece (cs : List Char) : Option Piece × List Char :=
  let (colon, cs) := match cs with
    | ':' :: rest => (true, rest)
    | cs => (false, cs)
  let digits := (cs.take 4).takeWhile isHex
  let after := cs.drop digits.length
  match digits.length, after with
  | 0, ':' :: rest => if colon then (some .gap, rest) else (none, cs)
  | 0, _ => (if colon then some .colon else none, cs)
  | 4, _ => (some (.group colon), after)
  | _, [] => (none, [])
  | _, '.' :: _ => (some (.numbers colon), cs)
  | _, _ => (some (.group colon), after)

/-- Whether so many groups are an address: eight, or fewer if there is a gap. -/
def isFull (count : Nat) (gap : Option Nat) : Bool :=
  if gap.isSome then count < 8 else count == 8

/-- Reads on behind so many groups, where a gap may have come after some of them. Answers whether it is
an address, and what follows the part that was read. -/
def readGroups : Nat → Nat → Option Nat → List Char → Bool × List Char
  | 0, _, _, cs => (false, cs)
  | fuel + 1, count, gap, cs =>
    if 8 ≤ count then (isFull count gap, cs)
    else match piece cs with
      | (some (.group colon), rest) =>
        if colon = (count = 0 ∨ gap = some count) then (false, rest)
        else readGroups fuel (count + 1) gap rest
      | (some (.numbers colon), rest) =>
        if 6 < count ∨ colon = (gap = some count) then (false, rest)
        else match address4? rest with
          | some rest => (isFull (count + 2) gap, rest)
          | none => (false, rest)
      | (some .gap, rest) =>
        if gap.isSome then (false, rest) else readGroups fuel count (some count) rest
      | (some .colon, rest) => (false, rest)
      | (none, rest) => (isFull count gap, rest)

/-- An address of a version to come. -/
def futureAddress (cs : List Char) : Left :=
  match cs with
  | v :: rest =>
    if v = 'v' ∨ v = 'V' then
      let version := rest.takeWhile isHex
      match version.isEmpty, rest.dropWhile isHex with
      | false, '.' :: address =>
        if (address.takeWhile inUser).isEmpty then unexpected address
        else .ok (address.dropWhile inUser)
      | _, rest => unexpected rest
    else unexpected cs
  | [] => unexpected cs

/-- An address behind its opening bracket, and the closing one. -/
def bracketed (cs : List Char) : Left := do
  let (full, rest) := readGroups (cs.length + 2) 0 none cs
  let rest ←
    if full then pure rest
    else if rest.length = cs.length then futureAddress cs
    else throw ⟨.address, cs⟩
  match rest with
  | ']' :: rest => return rest
  | _ => unexpected rest

/-- What follows a colon and digits, if they are there. -/
def skipDigits (cs : List Char) : List Char :=
  match cs with
  | ':' :: rest => rest.dropWhile Char.isDigit
  | _ => cs

def host (cs : List Char) : Left :=
  match cs with
  | '[' :: rest => bracketed rest
  | _ => skip inHost cs

/-- A name and its digits behind a colon, which have been read already and precede a given rest. -/
def checkDigits (name rest : List Char) : Left :=
  let digits := (name.reverse.takeWhile (· ≠ ':')).reverse
  match name.count ':' with
  | 0 => .ok rest
  | 1 =>
    match digits.dropWhile Char.isDigit with
    | [] => .ok rest
    | bad => unexpected (bad ++ rest)
  | _ => unexpected (':' :: digits ++ rest)

/-- A host, perhaps with a user in front and digits behind a colon after it. -/
def authority (cs : List Char) : Left := do
  match ← take inUser cs with
  | (_, '@' :: rest) => return skipDigits (← host rest)
  | ([], '[' :: rest) => return skipDigits (← bracketed rest)
  | (name, rest) => checkDigits name rest

/-- The path behind an authority is empty or starts with a slash. -/
def pathBehind (cs : List Char) : Except Stop (List Char × List Char) := do
  match ← take inPath cs with
  | ([], rest) => return ([], rest)
  | ('/' :: path, rest) => return ('/' :: path, rest)
  | _ => unexpected cs

/-- What may follow a sign, if it is there. -/
def behind (sign : Char) (cs : List Char) : Left :=
  match cs with
  | c :: rest => if c = sign then skip inQuery rest else .ok cs
  | [] => .ok cs

def scheme (cs : List Char) : Left :=
  match cs.dropWhile inScheme with
  | ':' :: rest => if cs.head?.any Char.isAlpha then .ok rest else unexpected cs
  | rest => unexpected rest

/-- The path of an identifier. -/
def readPath (cs : List Char) : Except Stop (List Char) := do
  let (path, rest) ← match ← scheme cs with
    | '/' :: '/' :: rest => pathBehind (← authority rest)
    | rest => take inPath rest
  match ← behind '#' (← behind '?' rest) with
  | [] => return path
  | rest => unexpected rest

end SqlLint.Uri
