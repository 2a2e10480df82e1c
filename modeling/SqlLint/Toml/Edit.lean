import SqlLint.Toml.Document
import SqlLint.Toml.Quoted

/-! # Setting a list of strings in a document

The key keeps its place and its spelling, and all other entries stay as they are. -/
namespace SqlLint.Toml

/-- An array of strings on one line. -/
def listNode (values : List String) : Node := .array [' '] (items true values) [] []
where
  items (first : Bool) : List String → List Node
    | [] => []
    | v :: vs =>
      .scalar (if first then [] else [' ']) (Quoted.encode v.toList) [] (.string v.toList) :: items false vs

/-- Sets a key of the root table, whose name needs no quotes, to a list of strings. -/
def Document.setList (name : String) (values : List String) (d : Document) : Document :=
  { d with entries := d.entries.set { name := name, text := name.toList } (listNode values) }

/-- The text with a list of strings under a key of the root table. All numbers of a document that is
to be edited need 64 bits. -/
def writeList (name : String) (values : List String) (text : List Char) : Except Fault (List Char) := do
  return ((← Document.read Scalar.isNarrow text).setList name values).render

end SqlLint.Toml
