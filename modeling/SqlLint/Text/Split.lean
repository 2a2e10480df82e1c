/-! # Parts of a text between marks -/
namespace SqlLint.Text

/-- The parts between the occurrences of a character. -/
def splitOn (mark : Char) : List Char → List (List Char)
  | [] => [[]]
  | c :: cs =>
    if c = mark then [] :: splitOn mark cs
    else match splitOn mark cs with
      | part :: parts => (c :: part) :: parts
      | [] => [[c]]

/-- The text before the first occurrence of a character and, if there is one, the text after it. -/
def cut (mark : Char) (cs : List Char) : List Char × Option (List Char) :=
  match cs.dropWhile (· ≠ mark) with
  | [] => (cs, none)
  | _ :: rest => (cs.takeWhile (· ≠ mark), some rest)

end SqlLint.Text
