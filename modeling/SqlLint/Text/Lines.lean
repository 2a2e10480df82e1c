import SqlLint.Text.Units

/-! # Lines of a text

A line ends at each newline, so a text has one line more than newlines. One carriage return at the
end of a line does not belong to its content. -/
namespace SqlLint.Text

/-- The lines without their newlines. -/
def lines : List Char → List (List Char)
  | [] => [[]]
  | c :: cs =>
    if c = '\n' then [] :: lines cs
    else match lines cs with
      | l :: ls => (c :: l) :: ls
      | [] => [[c]]

def dropReturn (line : List Char) : List Char :=
  if line.getLast? = some '\r' then line.dropLast else line

/-- The content of a line that exists for a reader of whole lines: nothing after the last newline is
no line, and a carriage return counts as content where no newline follows it. -/
def contentOf? : List (List Char) → Nat → Option (List Char)
  | [], _ => none
  | [l], 0 => if l.isEmpty then none else some l
  | l :: _ :: _, 0 => some (dropReturn l)
  | _ :: ls, n + 1 => contentOf? ls n

def content? (text : List Char) (line : Nat) : Option (List Char) := contentOf? (lines text) line

theorem lines_ne_nil (cs : List Char) : lines cs ≠ [] := by
  cases cs with
  | nil => simp [lines]
  | cons c cs =>
    rw [lines]
    split
    · simp
    · split <;> simp

theorem length_lines (cs : List Char) : (lines cs).length = cs.count '\n' + 1 := by
  induction cs with
  | nil => rfl
  | cons c cs ih =>
    rw [lines]
    split
    · next h => simp [h, ih]
    · next h =>
      split
      · next l ls hl =>
        rw [hl] at ih
        simpa [List.count_cons, h] using ih
      · next hl => exact absurd hl (lines_ne_nil cs)

end SqlLint.Text
