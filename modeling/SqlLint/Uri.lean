import SqlLint.Text.Utf8
import SqlLint.Uri.Reader

/-! # Uniform resource identifiers

An identifier keeps its exact text: two spellings are two identifiers. -/
namespace SqlLint

/-- An identifier and the path in it, still percent-encoded. -/
structure Uri where
  text : String
  path : List Char
  deriving DecidableEq, Repr

namespace Uri

/-- Why a text is no identifier: a flaw and the number of bytes in front of it. -/
structure Error where
  flaw : Flaw
  place : Nat
  deriving DecidableEq, Repr

def Flaw.text : Flaw → String
  | .code => "invalid percent-encoded octet"
  | .character => "unexpected character"
  | .address => "invalid IPv6 address"

def Error.message (e : Error) : String := e.flaw.text ++ " at index " ++ toString e.place

def parse (text : String) : Except Error Uri :=
  match readPath text.toList with
  | .ok path => .ok ⟨text, path⟩
  | .error stop => .error ⟨stop.flaw, text.utf8ByteSize - (String.ofList stop.rest).utf8ByteSize⟩

def parse? (text : String) : Option Uri := (parse text).toOption

def hexValue (c : Char) : Nat :=
  if c.isDigit then c.toNat - 48 else if 'a' ≤ c then c.toNat - 87 else c.toNat - 55

/-- The bytes that a percent-encoded text stands for. -/
def decode : List Char → List UInt8
  | '%' :: a :: b :: rest => UInt8.ofNat (hexValue a * 16 + hexValue b) :: decode rest
  | c :: rest => Utf8.encode (String.ofList [c]) ++ decode rest
  | [] => []

/-- The file path that an identifier denotes, whatever its scheme and authority; none if it is
empty. -/
def filePath? (uri : Uri) : Option String :=
  if uri.path.isEmpty then none else some (Utf8.lossy (decode uri.path))

def hexDigit (n : Nat) : Char := (Nat.digitChar n).toUpper

def encodeByte (b : UInt8) : List Char :=
  let c := Char.ofNat b.toNat
  if isUnreserved c || c == '/' then [c] else ['%', hexDigit (b.toNat / 16), hexDigit (b.toNat % 16)]

def encode (path : String) : List Char := (Utf8.encode path).flatMap encodeByte

/-- The identifier of an absolute file path. -/
def ofFilePath (path : String) : Uri :=
  ⟨String.ofList ("file://".toList ++ encode path), encode path⟩

end Uri
end SqlLint
