import SqlLint.Text.Split

/-! # Paths -/
namespace SqlLint.Path

def isAbsolute (path : String) : Bool := path.toList.head? == some '/'

/-- The second path seen from the first one. -/
def join (base path : String) : String :=
  if isAbsolute path then path
  else if base.isEmpty || base.toList.getLast? == some '/' then base ++ path
  else base ++ "/" ++ path

/-- The names between the slashes. -/
def names (path : String) : List String := (Text.splitOn '/' path.toList).map String.ofList

def dropSlashes (cs : List Char) : List Char := (cs.reverse.dropWhile (· == '/')).reverse

/-- The names before the last one; slashes at the end do not count. -/
def namesAbove (path : String) : List String :=
  (names (String.ofList (dropSlashes path.toList))).dropLast

/-- The names that lead to a place: the empty ones and the points between slashes say nothing, but a
path may start with a point. -/
def steps (path : String) : List String :=
  match isAbsolute path, names path with
  | false, "." :: rest => "." :: rest.filter moves
  | _, names => names.filter moves
where
  moves (name : String) : Bool := name != "" && name != "."

/-- The path without its last name; none for the root and for the empty path. -/
def parent? (path : String) : Option String :=
  match steps path with
  | [] => none
  | names =>
    let parent := "/".intercalate names.dropLast
    some (if isAbsolute path then "/" ++ parent else parent)

end SqlLint.Path
