/-! # Written strings of TOML

A string takes the first style that can hold it without an escape, or else double quotes with
escapes. -/
namespace SqlLint.Toml.Quoted

def isPlain (c : Char) : Bool := c.isAlphanum || ['-', '_', '.', '/', ' ', ':'].contains c

def isControl (c : Char) : Bool := c < ' ' || c == '\x7f'

/-- The greatest number of times that a character stands in a row. -/
def longestRun (mark : Char) : Nat → List Char → Nat
  | run, [] => run
  | run, c :: cs =>
    if c = mark then longestRun mark (run + 1) cs else max run (longestRun mark 0 cs)

/-- No control characters but those given. -/
def controlsOnly (allowed : List Char) (cs : List Char) : Bool :=
  cs.all fun c => !isControl c || allowed.contains c

def fitsBasic (cs : List Char) : Bool := controlsOnly ['\t'] cs && !cs.contains '\\' && !cs.contains '"'

def fitsLiteral (cs : List Char) : Bool := controlsOnly ['\t'] cs && !cs.contains '\x27'

def fitsBasicBlock (cs : List Char) : Bool :=
  controlsOnly ['\t', '\n'] cs && !cs.contains '\\' && longestRun '"' 0 cs ≤ 2

def fitsLiteralBlock (cs : List Char) : Bool :=
  controlsOnly ['\t', '\n'] cs && longestRun '\x27' 0 cs ≤ 2

def upperHex (n : Nat) : Char := (Nat.digitChar (n % 16)).toUpper

def escape (c : Char) : List Char :=
  if c = '\x08' then ['\\', 'b']
  else if c = '\t' then ['\\', 't']
  else if c = '\n' then ['\\', 'n']
  else if c = '\x0c' then ['\\', 'f']
  else if c = '\r' then ['\\', 'r']
  else if c = '\\' then ['\\', '\\']
  else if isControl c then ['\\', 'u', '0', '0', upperHex (c.toNat / 16), upperHex c.toNat]
  else [c]

/-- The text between double quotes; in a block a newline stands for itself and of quotes in a row
each third one is escaped. -/
def escapeAll (block : Bool) : Nat → List Char → List Char
  | _, [] => []
  | run, c :: cs =>
    if c = '"' then
      if block ∧ run < 2 then '"' :: escapeAll block (run + 1) cs
      else '\\' :: '"' :: escapeAll block 0 cs
    else if block ∧ c = '\n' then '\n' :: escapeAll block 0 cs
    else escape c ++ escapeAll block 0 cs

def basic (cs : List Char) : List Char := '"' :: escapeAll false 0 cs ++ ['"']

/-- A block starts on a new line if it has more than one. -/
def opening (cs : List Char) : List Char := if cs.contains '\n' then ['\n'] else []

def basicBlock (cs : List Char) : List Char :=
  ['"', '"', '"'] ++ opening cs ++ escapeAll true 0 cs ++ ['"', '"', '"']

def literal (cs : List Char) : List Char := '\x27' :: cs ++ ['\x27']

def literalBlock (cs : List Char) : List Char :=
  ['\x27', '\x27', '\x27'] ++ opening cs ++ cs ++ ['\x27', '\x27', '\x27']

def encode (cs : List Char) : List Char :=
  if cs.all isPlain then basic cs
  else if fitsBasic cs then basic cs
  else if fitsLiteral cs then literal cs
  else if fitsBasicBlock cs then basicBlock cs
  else if fitsLiteralBlock cs then literalBlock cs
  else if cs.contains '\n' then basicBlock cs
  else basic cs

end SqlLint.Toml.Quoted
