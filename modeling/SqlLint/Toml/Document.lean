import SqlLint.Toml.Node

/-! # TOML documents

A document is read from the lines of a text and written in the order of its tree: tables in the order
of their headers, and in each table the entries of a dotted table next to one another. -/
namespace SqlLint.Toml

structure Document where
  entries : Entries := []
  rest : List Char := []
  deriving Repr

namespace Document

/-- Where entries go: into a table of the tree, or into a repeated table that is not in it yet. -/
inductive Cursor
  | table (path : List Label)
  | row (header : Header) (path : List Label) (entries : Entries)

/-- A document under construction: its entries, the open table and the number of headers so far. -/
structure Draft where
  entries : Entries := []
  cursor : Cursor := .table []
  headers : Nat := 0

namespace Draft

/-- Changes the table that holds the last name of a path. -/
def atLast (f : Label → Entries → Option Entries) (path : List Label) (entries : Entries) :
    Option Entries := do
  entries.within (f (← path.getLast?)) path.dropLast

/-- A repeated table enters the tree when it is complete. -/
def finish (d : Draft) : Except Fault Draft :=
  match d.cursor with
  | .table _ => .ok d
  | .row header path row => do
    let entries ← orMalformed (atLast (Entries.addRow header row) path d.entries)
    return { d with entries := entries, cursor := .table path }

/-- Sets a value in the open table. -/
def put (node : Node) (labels : List Label) (d : Draft) : Except Fault Draft :=
  match d.cursor with
  | .table path => do
    return { d with entries := ← orMalformed (d.entries.within (Entries.put node labels) path) }
  | .row header path row => do
    return { d with cursor := .row header path (← orMalformed (row.put node labels)) }

/-- Reads one more line. -/
def add (takes : Scalar → Bool) (d : Draft) : Line → Except Fault Draft
  | .entry key raw => do
    let labels ← key.labels
    d.put (← raw.node takes) labels
  | .header lead repeated key tail => do
    let d ← d.finish
    let labels ← key.labels
    let header : Header := ⟨d.headers, lead, tail⟩
    if repeated then return ⟨d.entries, .row header labels [], d.headers + 1⟩
    let entries ← orMalformed (atLast (Entries.openTable header) labels d.entries)
    return ⟨entries, .table labels, d.headers + 1⟩

end Draft

def ofSource (takes : Scalar → Bool) (s : Source) : Except Fault Document := do
  let draft ← (← s.lines.foldlM (Draft.add takes) {}).finish
  return ⟨draft.entries, s.rest⟩

/-- The document of a text, all of whose scalars must be ones to take. -/
def read (takes : Scalar → Bool) (text : List Char) : Except Fault Document := do
  ofSource takes (← orMalformed (Source.read? text))

/-- The table that the document describes. -/
def table (d : Document) : List (String × Value) := tableOf d.entries

end Document

/-- The names of a key with points between them. -/
def pathText : List Label → List Char
  | [] => []
  | [l] => l.text
  | l :: l' :: ls => l.text ++ l.after ++ '.' :: l'.before ++ pathText (l' :: ls)

/-- A key with what stands around it, if that is known, or else what usually does. -/
def keyText (usual : List Char × List Char) (path : List Label) : List Char :=
  let around := (path.getLast?.bind Label.around).getD usual
  around.1 ++ pathText path ++ around.2

def commas (texts : List (List Char)) : List Char := [','].intercalate texts

mutual
/-- A value as it is written. -/
def Node.text : Node → List Char
  | .scalar before text after _ => before ++ text ++ after
  | .array before items rest after => before ++ '[' :: commas (textsOf items) ++ rest ++ ']' :: after
  | .inline before entries rest after =>
    before ++ '\x7b' :: commas (entryTexts [] entries) ++ rest ++ '\x7d' :: after
  | .table .. => []
  | .tables _ => []

def textsOf : List Node → List (List Char)
  | [] => []
  | n :: rest => n.text :: textsOf rest

/-- The entries under a path, each with its whole key. Tables with a header are not among them. -/
def entryTexts (path : List Label) : List (Label × Node) → List (List Char)
  | [] => []
  | (l, .table .dotted t) :: rest => entryTexts (path ++ [l]) t ++ entryTexts path rest
  | (_, .table .implicit _) :: rest => entryTexts path rest
  | (_, .table (.header _) _) :: rest => entryTexts path rest
  | (_, .tables _) :: rest => entryTexts path rest
  | (l, n) :: rest => (keyText ([], [' ']) (path ++ [l]) ++ '=' :: n.text) :: entryTexts path rest
end

/-- A header with its entries. -/
structure Section where
  header : Header
  repeated : Bool
  path : List Label
  entries : Entries

mutual
/-- The tables with a header, in the order of the tree. -/
def Node.sections (path : List Label) : Node → List Section
  | .table (.header h) entries => ⟨h, false, path, entries⟩ :: sectionsOf path entries
  | .table _ entries => sectionsOf path entries
  | .tables rows => rowSections path rows
  | _ => []

def sectionsOf (path : List Label) : List (Label × Node) → List Section
  | [] => []
  | (l, n) :: rest => n.sections (path ++ [l]) ++ sectionsOf path rest

def rowSections (path : List Label) : List (Header × List (Label × Node)) → List Section
  | [] => []
  | (h, row) :: rows => ⟨h, true, path, row⟩ :: sectionsOf path row ++ rowSections path rows
end

/-- Entries, each on its own line. -/
def linesText (entries : Entries) : List Char := (entryTexts [] entries).flatMap (· ++ ['\n'])

def Section.text (s : Section) : List Char :=
  let brackets := if s.repeated then 2 else 1
  s.header.lead ++ List.replicate brackets '[' ++ keyText ([], []) s.path ++
    List.replicate brackets ']' ++ s.header.tail ++ '\n' :: linesText s.entries

def Document.render (d : Document) : List Char :=
  let sections := (sectionsOf [] d.entries).mergeSort fun a b => a.header.place ≤ b.header.place
  linesText d.entries ++ sections.flatMap Section.text ++ d.rest

end SqlLint.Toml
