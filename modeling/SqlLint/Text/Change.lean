import SqlLint.Text.Position

/-! # Changes of a text -/
namespace SqlLint

/-- A new text for a range or, without one, for everything. -/
structure Change where
  range : Option Range
  text : List Char
  deriving DecidableEq, Repr

namespace Change

/-- The text around a range. A place beyond the last line is the end of the text, and a range that
ends before it starts is empty. -/
def around (text : List Char) (range : Range) : List Char × List Char :=
  let front := (Text.splitAt? text range.start).getD (text, [])
  let back := (Text.splitAt? text range.stop).getD (text, [])
  (front.1, if front.2.length < back.2.length then front.2 else back.2)

def apply (text : List Char) (change : Change) : List Char :=
  match change.range with
  | some range =>
    let (before, after) := around text range
    before ++ change.text ++ after
  | none => change.text

def applyAll (text : List Char) (changes : List Change) : List Char := changes.foldl apply text

end Change
end SqlLint
