/-! # Tokens of TOML

A text is cut into tokens that lose nothing of it. Strings and words are not looked into: a string
may lack its closing quotes, and a word is all that stands between blanks and marks. -/
namespace SqlLint.Toml

/-- A piece of a text. A mark is a point, an equals sign, a comma or a bracket. -/
inductive Token
  | mark (c : Char)
  | blank (text : List Char)
  | newline (text : List Char)
  | comment (text : List Char)
  | string (text : List Char)
  | word (text : List Char)
  deriving DecidableEq, Repr

namespace Token

def text : Token → List Char
  | mark c => [c]
  | blank text | newline text | comment text | string text | word text => text

def isMark (c : Char) : Bool := ['.', '=', ',', '[', ']', '\x7b', '\x7d'].contains c

def isBlank (c : Char) : Bool := c == ' ' || c == '\t'

def isQuote (c : Char) : Bool := c == '"' || c == '\x27'

def endsLine (c : Char) : Bool := c == '\n' || c == '\r'

def endsWord (c : Char) : Bool := isMark c || isBlank c || endsLine c || c == '#'

/-- Whether a backslash between double quotes takes the next character along. -/
def escapes (quote c d : Char) : Bool := quote == '"' && c == '\\' && (d == '"' || d == '\\')

/-- Puts text in front of the first part of a text in two parts. -/
def join (front : List Char) (parts : List Char × List Char) : List Char × List Char :=
  (front ++ parts.1, parts.2)

/-- The rest of a string of one line, with its closing quote if there is one. -/
def takeLine (quote : Char) : List Char → List Char × List Char
  | [] => ([], [])
  | c :: rest =>
    if c = quote then ([c], rest)
    else if c = '\n' then ([], c :: rest)
    else match rest with
      | [] => ([c], [])
      | d :: more =>
        if escapes quote c d then join [c, d] (takeLine quote more)
        else join [c] (takeLine quote (d :: more))

/-- The rest of a block string behind a run of quotes; up to two quotes may precede the closing
ones. -/
def takeBlock (quote : Char) (run : Nat) : List Char → List Char × List Char
  | [] => ([], [])
  | c :: rest =>
    if c = quote ∧ run < 5 then join [c] (takeBlock quote (run + 1) rest)
    else if 3 ≤ run then ([], c :: rest)
    else match rest with
      | [] => ([c], [])
      | d :: more =>
        if escapes quote c d then join [c, d] (takeBlock quote 0 more)
        else join [c] (takeBlock quote 0 (d :: more))

/-- The rest of a string behind its first quote. -/
def takeString (quote : Char) : List Char → List Char × List Char
  | a :: b :: rest =>
    if a = quote ∧ b = quote then join [a, b] (takeBlock quote 0 rest)
    else takeLine quote (a :: b :: rest)
  | rest => takeLine quote rest

/-- The token that starts with a character, and what follows it. -/
def next (c : Char) (cs : List Char) : Token × List Char :=
  if isMark c then (.mark c, cs)
  else if isBlank c then (.blank (c :: cs.takeWhile isBlank), cs.dropWhile isBlank)
  else if c = '\n' then (.newline [c], cs)
  else if c = '\r' then
    match cs with
    | '\n' :: rest => (.newline [c, '\n'], rest)
    | _ => (.newline [c], cs)
  else if c = '#' then (.comment (c :: cs.takeWhile (!endsLine ·)), cs.dropWhile (!endsLine ·))
  else if isQuote c then
    (.string (c :: (takeString c cs).1), (takeString c cs).2)
  else (.word (c :: cs.takeWhile (!endsWord ·)), cs.dropWhile (!endsWord ·))

@[simp] theorem append_join (front : List Char) (parts : List Char × List Char) :
    (join front parts).1 ++ (join front parts).2 = front ++ (parts.1 ++ parts.2) := by
  simp [join]

theorem takeLine_append (quote : Char) (cs : List Char) :
    (takeLine quote cs).1 ++ (takeLine quote cs).2 = cs := by
  fun_induction takeLine quote cs <;> simp_all

theorem takeBlock_append (quote : Char) (run : Nat) (cs : List Char) :
    (takeBlock quote run cs).1 ++ (takeBlock quote run cs).2 = cs := by
  fun_induction takeBlock quote run cs <;> simp_all

theorem takeString_append (quote : Char) (cs : List Char) :
    (takeString quote cs).1 ++ (takeString quote cs).2 = cs := by
  fun_cases takeString quote cs <;> simp_all [takeLine_append, takeBlock_append]

/-- A token and what follows it are the text. -/
theorem next_append (c : Char) (cs : List Char) : (next c cs).1.text ++ (next c cs).2 = c :: cs := by
  fun_cases next c cs <;> simp_all [text, takeString_append]

theorem length_next_le (c : Char) (cs : List Char) : (next c cs).2.length ≤ cs.length := by
  have h := congrArg List.length (next_append c cs)
  have : 0 < (next c cs).1.text.length := by
    fun_cases next c cs <;> simp_all [text]
  simp only [List.length_append, List.length_cons] at h
  omega

/-- The tokens of a text. -/
def ofText : List Char → List Token
  | [] => []
  | c :: cs => (next c cs).1 :: ofText (next c cs).2
termination_by cs => cs.length
decreasing_by exact Nat.lt_succ_of_le (length_next_le c cs)

/-- Nothing of a text is lost. -/
theorem flatMap_text_ofText (cs : List Char) : (ofText cs).flatMap text = cs := by
  fun_induction ofText cs with
  | case1 => rfl
  | case2 c cs ih => rw [List.flatMap_cons, ih, next_append]

end Token
end SqlLint.Toml
