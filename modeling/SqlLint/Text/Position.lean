import SqlLint.Text.Lines
import SqlLint.Word

/-! # Positions in a text

A position counts lines and, within a line, 16-bit units, both in numbers of 32 bits. It denotes a place between two
characters: the place after the last character of the line when it lies beyond, and the place after
a character when it falls inside it. -/
namespace SqlLint

structure Position where
  line : Nat
  character : Nat
  deriving DecidableEq, Repr

namespace Position

/-- The editor's numbers have 32 bits. -/
def word (n : Nat) : Nat := n % Word.size 32

/-- A position as the editor gets it. -/
def words (p : Position) : Position := ⟨word p.line, word p.character⟩

theorem word_of_lt {n : Nat} (h : n < Word.size 32) : word n = n := Nat.mod_eq_of_lt h

theorem words_of_lt {p : Position} (line : p.line < Word.size 32) (character : p.character < Word.size 32) :
    p.words = p := by
  rw [words, word_of_lt line, word_of_lt character]

end Position

structure Range where
  start : Position
  stop : Position
  deriving DecidableEq, Repr

namespace Text

/-- The text up to the start of a line, and the rest. -/
def splitAtLine : Nat → List Char → Option (List Char × List Char)
  | 0, cs => some ([], cs)
  | _ + 1, [] => none
  | n + 1, c :: cs =>
    (splitAtLine (if c = '\n' then n else n + 1) cs).map fun parts => (c :: parts.1, parts.2)

/-- The content of the first line. -/
def firstLine (cs : List Char) : List Char := dropReturn (cs.takeWhile (· ≠ '\n'))

/-- The text before a position and the text after it; none beyond the last line. -/
def splitAt? (text : List Char) (p : Position) : Option (List Char × List Char) :=
  (splitAtLine p.line text).map fun parts =>
    let taken := takeUnits p.character (firstLine parts.2)
    (parts.1 ++ taken, parts.2.drop taken.length)

/-- The bytes before a position. -/
def offset? (text : List Char) (p : Position) : Option Nat :=
  (splitAt? text p).map fun parts => bytes parts.1

/-- The units of a line's content before an offset; an offset inside a character counts as the end
of the line. -/
def column (line : List Char) (offset : Nat) : Nat :=
  let content := dropReturn line
  units ((takeBytes? offset content).getD content)

def locate : List (List Char) → Nat → Position
  | [], _ => ⟨0, 0⟩
  | [l], offset => ⟨0, column l offset⟩
  | l :: ls, offset =>
    if offset ≤ bytes l then ⟨0, column l offset⟩
    else
      let p := locate ls (offset - bytes l - 1)
      ⟨p.line + 1, p.character⟩

/-- The line and the column of a byte offset, whatever their size. -/
def located (text : List Char) (offset : Nat) : Position := locate (lines text) offset

/-- The position of a byte offset. -/
def position (text : List Char) (offset : Nat) : Position := (located text offset).words

def fullRange (text : List Char) : Range := ⟨⟨0, 0⟩, position text (bytes text)⟩

/-- The units before a column counted in characters. -/
def unitColumn (text : List Char) (line column : Nat) : Nat :=
  match content? text line with
  | some content => units (content.take column)
  | none => column

/-- The characters before a column counted in units. -/
def charColumn (text : List Char) (line character : Nat) : Nat :=
  match content? text line with
  | some content => (takeUnits character content).length
  | none => character

def lineUnits (text : List Char) (line : Nat) : Nat := ((content? text line).map units).getD 0

theorem splitAtLine_append {n : Nat} {cs a b : List Char} (h : splitAtLine n cs = some (a, b)) :
    a ++ b = cs := by
  induction cs generalizing n a with
  | nil => cases n <;> simp_all [splitAtLine]
  | cons c cs ih =>
    cases n with
    | zero => simp_all [splitAtLine]
    | succ n =>
      rw [splitAtLine, Option.map_eq_some_iff] at h
      obtain ⟨⟨x, y⟩, hx, he⟩ := h
      obtain ⟨rfl, rfl⟩ := Prod.mk.injEq .. ▸ he
      simp [ih hx]

theorem firstLine_isPrefix (cs : List Char) : firstLine cs <+: cs := by
  refine List.IsPrefix.trans ?_ (List.takeWhile_prefix (p := (· ≠ '\n')) (l := cs))
  unfold firstLine dropReturn
  split
  · exact List.dropLast_prefix _
  · exact List.prefix_rfl

end Text
end SqlLint
