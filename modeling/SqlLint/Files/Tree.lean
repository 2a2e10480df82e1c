import SqlLint.Files.Path
import SqlLint.Text.Utf8

/-! # A tree of files

Paths are walked name by name, so that every name but the last one must be that of a directory that
may be entered. Files and directories have an access, so that reading and writing may be refused,
and a write may break off when it has emptied the file. -/
namespace SqlLint

/-- What is in a file: text where the bytes are text, or else the bytes. -/
inductive Content
  | text (value : String)
  | binary (bytes : List UInt8)
  deriving DecidableEq, Repr

def Content.ofBytes (bytes : List UInt8) : Content :=
  match Utf8.text? bytes with
  | some s => .text s
  | none => .binary bytes

def Content.lossy : Content → String
  | .text s => s
  | .binary bytes => Utf8.lossy bytes

inductive IoError
  | notFound
  | permissionDenied
  | alreadyExists
  | notDirectory
  | isDirectory
  | nameTooLong
  | noSpace
  | notText
  | nulInPath
  deriving DecidableEq, Repr

def IoError.message : IoError → String
  | .notFound => "No such file or directory (os error 2)"
  | .permissionDenied => "Permission denied (os error 13)"
  | .alreadyExists => "File exists (os error 17)"
  | .notDirectory => "Not a directory (os error 20)"
  | .isDirectory => "Is a directory (os error 21)"
  | .nameTooLong => "File name too long (os error 36)"
  | .noSpace => "No space left on device (os error 28)"
  | .notText => "stream did not contain valid UTF-8"
  | .nulInPath => "file name contained an unexpected NUL byte"

/-- What may be done with a file or a directory. -/
inductive Access
  /-- The file is not read, the directory is not entered. -/
  | hidden
  /-- The file is not written, and nothing is made in the directory. -/
  | fixed
  /-- There is no room: the file can be emptied and then takes nothing, as do files that are made in
  the directory. -/
  | full
  | free
  deriving DecidableEq, Repr

/-- Why nothing can be written, if so. -/
def Access.refusal? : Access → Option IoError
  | .free => none
  | .full => some .noSpace
  | _ => some .permissionDenied

/-- A file may be one that can be run. -/
inductive Tree.Node
  | directory (access : Access := .free)
  | file (content : Content) (access : Access := .free) (runs : Bool := false)
  deriving DecidableEq, Repr

def Tree.Node.access : Tree.Node → Access
  | .directory access => access
  | .file _ access _ => access

def Tree.Node.read (node : Tree.Node) : Except IoError Content :=
  if node.access = .hidden then .error .permissionDenied
  else match node with
    | .directory _ => .error .isDirectory
    | .file content .. => .ok content

/-- The working directory, what there is below the root, and the access to the root. -/
structure Tree where
  here : List String
  nodes : List (List String × Tree.Node)
  root : Access := .free
  deriving DecidableEq, Repr

namespace Tree

def node? (t : Tree) (place : List String) : Option Node :=
  if place.isEmpty then some (.directory t.root) else t.nodes.lookup place

def put (t : Tree) (place : List String) (node : Node) : Tree :=
  { t with nodes := (place, node) :: t.nodes.filter fun entry => entry.1 != place }

/-- The greatest number of bytes in a name. -/
def nameLimit : Nat := 255

/-- The greatest number of bytes in a path. -/
def pathLimit : Nat := 4095

/-- Follows names from a place, each of them into a directory. -/
def walk (t : Tree) (place : List String) : List String → Except IoError (List String)
  | [] => .ok place
  | name :: names =>
    match t.node? place with
    | none => .error .notFound
    | some (.file ..) => .error .notDirectory
    | some (.directory access) =>
      if access = .hidden then .error .permissionDenied
      else if nameLimit < name.utf8ByteSize then .error .nameTooLong
      else walk t (if name = "" ∨ name = "." then place
        else if name = ".." then place.dropLast else place ++ [name]) names

/-- Follows names of a path from where the path starts. -/
def follow (t : Tree) (path : String) (names : List String) : Except IoError (List String) :=
  if path.isEmpty then .error .notFound
  else if path.toList.contains '\x00' then .error .nulInPath
  else if pathLimit < path.utf8ByteSize then .error .nameTooLong
  else t.walk (if Path.isAbsolute path then [] else t.here) names

/-- The place that a path names, whether or not something is there. -/
def locate (t : Tree) (path : String) : Except IoError (List String) :=
  t.follow path (Path.names path)

/-- The place of the directory in which the last name of a path is to be looked up. -/
def locateAbove (t : Tree) (path : String) : Except IoError (List String) :=
  t.follow path (Path.namesAbove path ++ [""])

def find (t : Tree) (path : String) : Except IoError Node := do
  match t.node? (← t.locate path) with
  | some node => .ok node
  | none => .error .notFound

def isDirectory (t : Tree) (path : String) : Bool :=
  match t.find path with
  | .ok (.directory _) => true
  | _ => false

def read (t : Tree) (path : String) : Except IoError Content := do
  (← t.find path).read

def readText (t : Tree) (path : String) : Except IoError String := do
  match ← t.read path with
  | .text s => .ok s
  | .binary _ => .error .notText

/-- The absolute path of something that is there. -/
def canonical? (t : Tree) (path : String) : Option String :=
  match t.locate path with
  | .ok place => if (t.node? place).isSome then some ("/" ++ "/".intercalate place) else none
  | .error _ => none

/-- Changes of the tree, which stay even where a later step fails. -/
abbrev Action (α : Type) := ExceptT IoError (StateM Tree) α

/-- The places above a place, the root left out. -/
def above (place : List String) : List (List String) :=
  (List.range (place.length - 1)).map fun n => place.take (n + 1)

def addDirectory (t : Tree) (place : List String) : Tree :=
  if (t.node? place).isSome then t else t.put place .directory

/-- Puts something at a place and directories above it. -/
def add (t : Tree) (place : List String) (node : Node) : Tree :=
  ((above place).foldl addDirectory t).put place node

/-- A tree with nothing but a working directory. -/
def empty (here : List String) : Tree := (above (here ++ [""])).foldl addDirectory { here, nodes := [] }

/-- The files below the working directory, by their paths from there. -/
def files (t : Tree) : List (String × Content) :=
  t.nodes.filterMap fun entry =>
    match entry.2 with
    | .file content .. =>
      if t.here.isPrefixOf entry.1 then some ("/".intercalate (entry.1.drop t.here.length), content)
      else none
    | .directory _ => none

/-- The access to the directory that a place is in. -/
def accessAbove (t : Tree) (place : List String) : Access :=
  ((t.node? place.dropLast).map Node.access).getD .free

/-- The access to a file that is to be written, and whether it can be run; a new file is one of the
directory that it is made in. -/
def target? (t : Tree) (place : List String) : Option (Access × Bool) :=
  match t.node? place with
  | some (.directory _) => none
  | some (.file _ access runs) => some (access, runs)
  | none => some (t.accessAbove place, false)

/-- Writes a file. A path with a slash at the end is one of a directory, whatever its last name. -/
def write (path : String) (content : Content) : Action Unit := do
  let t ← get
  if path.toList.getLast? = some '/' then
    let _ ← t.locateAbove path
    throw .isDirectory
  let place ← t.locate path
  match t.target? place with
  | none => throw .isDirectory
  | some (access, runs) =>
    match access.refusal? with
    | none => set (t.put place (.file content access runs))
    | some e =>
      if access = .full then set (t.put place (.file (.text "") access runs))
      throw e

def makeDirectory (path : String) : Action Unit := do
  let t ← get
  match t.locate (String.ofList (Path.dropSlashes path.toList)) with
  | .error e => throw e
  | .ok place =>
    match t.node? place, (t.accessAbove place).refusal? with
    | some _, _ => throw .alreadyExists
    | none, some e => throw e
    | none, none => set (t.put place .directory)

def tryMakeDirectory (path : String) : Action Bool := do
  let t ← get
  try
    makeDirectory path
    return true
  catch e =>
    if t.isDirectory path then return true
    else if e = .notFound then return false
    else throw e

/-- Makes a directory and those above it, as far as they are missing. -/
def makeDirectories : Nat → String → Action Unit
  | 0, _ => throw .notFound
  | fuel + 1, path => do
    if path.isEmpty then return
    if ← tryMakeDirectory path then return
    match Path.parent? path with
    | none => throw .notFound
    | some parent =>
      makeDirectories fuel parent
      unless ← tryMakeDirectory path do throw .notFound

theorem node?_put_self (t : Tree) {place : List String} (h : place ≠ []) (node : Node) :
    (t.put place node).node? place = some node := by
  simp [put, node?, h]

theorem lookup_filter_ne {α β : Type} [BEq α] [LawfulBEq α] {a b : α} (h : a ≠ b)
    (entries : List (α × β)) : (entries.filter fun e => e.1 != b).lookup a = entries.lookup a := by
  induction entries with
  | nil => rfl
  | cons e entries ih =>
    obtain ⟨k, v⟩ := e
    by_cases hk : k = b
    · subst hk
      simp [ih, List.lookup_cons, beq_false_of_ne h]
    · simp [hk, List.lookup_cons, ih]

theorem node?_put_of_ne (t : Tree) {place other : List String} (h : other ≠ place) (node : Node) :
    (t.put place node).node? other = t.node? other := by
  simp [put, node?, List.lookup_cons, beq_false_of_ne h, lookup_filter_ne h]

end Tree
end SqlLint
