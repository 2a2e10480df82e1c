import SqlLint.Toml.Value

/-! # Trees of tables

A document is a tree whose entries stand in the order in which their names first appear, each under
its key as it is first written. A table is defined once: by its header, or by the dotted keys of one
other table. A table that was only named on the way to another one may still get a header of its
own, or entries by dotted keys. -/
namespace SqlLint.Toml

/-- A name of the tree, as it is written, with the blanks towards the points beside it. What stands
around a whole key that ends here is known if the name was ever the last one. -/
structure Label where
  name : String
  text : List Char
  before : List Char := []
  after : List Char := []
  around : Option (List Char × List Char) := none
  deriving DecidableEq, Repr

/-- A header: its place among the headers, what precedes it, and what follows on its line. -/
structure Header where
  place : Nat
  lead : List Char
  tail : List Char
  deriving DecidableEq, Repr

/-- How a table came to be. -/
inductive Origin
  | implicit
  | dotted
  | header (header : Header)
  deriving DecidableEq, Repr

/-- A value as it is written, a table, or repeated tables, of which the last one is open. -/
inductive Node
  | scalar (before text after : List Char) (meaning : Scalar)
  | array (before : List Char) (items : List Node) (rest after : List Char)
  | inline (before : List Char) (entries : List (Label × Node)) (rest after : List Char)
  | table (origin : Origin) (entries : List (Label × Node))
  | tables (rows : List (Header × List (Label × Node)))
  deriving Repr, Inhabited

abbrev Entries := List (Label × Node)

namespace Entries

def get? (name : String) : Entries → Option Node
  | [] => none
  | (l, n) :: rest => if l.name = name then some n else get? name rest

/-- Gives a name another node, which keeps its place and its spelling; a new name goes to the end. -/
def set (label : Label) (node : Node) : Entries → Entries
  | [] => [(label, node)]
  | (l, n) :: rest => if l.name = label.name then (l, node) :: rest else (l, n) :: set label node rest

def remove (name : String) (entries : Entries) : Entries := entries.filter fun e => e.1.name != name

/-- Changes the last of repeated tables. -/
def onLast (f : Entries → Option Entries) :
    List (Header × Entries) → Option (List (Header × Entries))
  | [] => none
  | [(h, row)] => (f row).map fun row => [(h, row)]
  | row :: rows => (onLast f rows).map (row :: ·)

/-- Sets a value by a dotted key. Its tables must not have a header of their own. Of repeated tables
the last one may get entries of its tables, but none of its own. -/
def put (node : Node) : List Label → Entries → Option Entries
  | [], _ => none
  | [l], entries => if (entries.get? l.name).isSome then none else some (entries.set l node)
  | l :: l' :: ls, entries =>
    match entries.get? l.name with
    | none => (put node (l' :: ls) []).map fun t => entries.set l (.table .dotted t)
    | some (.table (.header _) _) => none
    | some (.table _ t) => (put node (l' :: ls) t).map fun t => entries.set l (.table .dotted t)
    | some (.tables rows) =>
      if ls.isEmpty then none
      else (onLast (put node (l' :: ls)) rows).map fun rows => entries.set l (.tables rows)
    | some _ => none

/-- Changes the table that a path leads to. Tables that are missing on the way are named by it. -/
def within (f : Entries → Option Entries) : List Label → Entries → Option Entries
  | [], entries => f entries
  | l :: ls, entries =>
    match entries.get? l.name with
    | none => (within f ls []).map fun t => entries.set l (.table .implicit t)
    | some (.table origin t) => (within f ls t).map fun t => entries.set l (.table origin t)
    | some (.tables rows) => (onLast (within f ls) rows).map fun rows => entries.set l (.tables rows)
    | some _ => none

/-- Opens the table of a header. A table that was only named so far takes the place of a new one. -/
def openTable (header : Header) (l : Label) (entries : Entries) : Option Entries :=
  match entries.get? l.name with
  | none => some (entries.set l (.table (.header header) []))
  | some (.table .implicit t) => some (entries.remove l.name ++ [(l, .table (.header header) t)])
  | some _ => none

/-- Adds a table to repeated ones. -/
def addRow (header : Header) (row : Entries) (l : Label) (entries : Entries) : Option Entries :=
  match entries.get? l.name with
  | none => some (entries.set l (.tables [(header, row)]))
  | some (.tables rows) => some (entries.set l (.tables (rows ++ [(header, row)])))
  | some _ => none

end Entries

/-- How many segments a key may have. -/
def Key.limit : Nat := 80

/-- The names of a key. What stands around the whole of it belongs to the last one. -/
def Key.labels (key : Key) : Except Fault (List Label) := do
  let names ← key.mapM Segment.name
  if Key.limit < key.length then throw .malformed
  let around := ((key.head?.map Segment.before).getD [], (key.getLast?.map Segment.after).getD [])
  return spell around true (names.zip key)
where
  spell (around : List Char × List Char) (first : Bool) : List (String × Segment) → List Label
    | [] => []
    | [(name, s)] => [⟨name, s.text, if first then [] else s.before, [], some around⟩]
    | (name, s) :: rest =>
      ⟨name, s.text, if first then [] else s.before, s.after, none⟩ :: spell around false rest

mutual
/-- The meaning of a written value, all of whose scalars must be ones to take. -/
def Raw.node (takes : Scalar → Bool) : Raw → Except Fault Node
  | .scalar before text after => do
    let s ← scalarOf text
    if takes s then return .scalar before text after s else throw .malformed
  | .array before items rest after =>
    (nodesOf takes items).map fun ns => .array before ns rest after
  | .table before entries rest after =>
    (fill takes entries []).map fun es => .inline before es rest after

def nodesOf (takes : Scalar → Bool) : List Raw → Except Fault (List Node)
  | [] => .ok []
  | raw :: rest => do
    let n ← raw.node takes
    (nodesOf takes rest).map (n :: ·)

def fill (takes : Scalar → Bool) : List (Key × Raw) → Entries → Except Fault Entries
  | [], entries => .ok entries
  | (key, raw) :: rest, entries => do
    let labels ← key.labels
    let n ← raw.node takes
    fill takes rest (← orMalformed (entries.put n labels))
end

mutual
/-- The value that a node describes. -/
def Node.value : Node → Value
  | .scalar _ _ _ s => .scalar s
  | .array _ items _ _ => .array (valuesOf items)
  | .inline _ entries _ _ => .table (tableOf entries)
  | .table _ entries => .table (tableOf entries)
  | .tables rows => .array (rowsOf rows)

def valuesOf : List Node → List Value
  | [] => []
  | n :: rest => n.value :: valuesOf rest

/-- The entries in the order of their keys. -/
def tableOf : List (Label × Node) → List (String × Value)
  | [] => []
  | (l, n) :: rest => Assoc.insert l.name n.value (tableOf rest)

def rowsOf : List (Header × List (Label × Node)) → List Value
  | [] => []
  | (_, row) :: rows => .table (tableOf row) :: rowsOf rows
end

end SqlLint.Toml
