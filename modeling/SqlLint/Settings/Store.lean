import SqlLint.Rule
import SqlLint.Settings.File
import SqlLint.Toml.Edit

/-! # Stores of excluded rules -/
namespace SqlLint

/-- A step on a store that is kept in a state. -/
abbrev StoreM (σ α : Type) := ExceptT SettingsError (StateM σ) α

/-- A list of excluded rules for each scope. -/
structure Store (σ : Type) where
  rules : Scope → StoreM σ (List String)
  setRules : Scope → List String → StoreM σ Unit

namespace Store

/-- Adds a rule to the list of a scope and answers the list. -/
def exclude {σ : Type} (store : Store σ) (scope : Scope) (rule : String) : StoreM σ (List String) := do
  let rules := Rule.exclude (← store.rules scope) rule
  store.setRules scope rules
  return rules

end Store

/-- The lists of the two scopes. -/
structure RuleLists where
  global : List String := []
  workspace : List String := []
  deriving DecidableEq, Repr

namespace RuleLists

def get (lists : RuleLists) : Scope → List String
  | .global => lists.global
  | .workspace => lists.workspace

def set (lists : RuleLists) (rules : List String) : Scope → RuleLists
  | .global => { lists with global := rules }
  | .workspace => { lists with workspace := rules }

@[simp] theorem get_set_self (lists : RuleLists) (rules : List String) (scope : Scope) :
    (lists.set rules scope).get scope = rules := by cases scope <;> rfl

theorem get_set_of_ne (lists : RuleLists) (rules : List String) {scope other : Scope}
    (h : other ≠ scope) : (lists.set rules scope).get other = lists.get other := by
  cases scope <;> cases other <;> first | rfl | exact absurd rfl h

end RuleLists

/-- A store in memory. -/
def memoryStore : Store RuleLists where
  rules scope := return (← get).get scope
  setRules scope rules := modify fun lists => lists.set rules scope

/-- The settings files of the scopes. -/
structure SettingsFiles where
  global : Option String := none
  workspace : Option String := none
  deriving DecidableEq, Repr

namespace SettingsFiles

def path? (files : SettingsFiles) : Scope → Option String
  | .global => files.global
  | .workspace => files.workspace

def path (files : SettingsFiles) (scope : Scope) : StoreM Tree String :=
  match files.path? scope with
  | some path => pure path
  | none => throw (.scopeUnavailable scope)

def rulesKey : String := "excludeRules"

def onFiles {α : Type} (action : Tree.Action α) : StoreM Tree α :=
  action.adapt fun e => .io e.message

/-- Writes the list into the file, whose other text stays; directories are made as needed. -/
def writeRules (path : String) (rules : List String) : StoreM Tree Unit := do
  let text ← match (← get).readText path with
    | .ok text => pure text
    | .error .notFound => pure ""
    | .error e => throw (.io e.message)
  match Toml.writeList rulesKey rules text.toList with
  | .error f => throw (.parse path f.message)
  | .ok written =>
    if let some parent := Path.parent? path then
      onFiles (Tree.makeDirectories (parent.length + 1) parent)
    onFiles (Tree.write path (.text (String.ofList written)))

/-- The store that keeps the lists in settings files. -/
def store (files : SettingsFiles) : Store Tree where
  rules scope := do
    let path ← files.path scope
    match Layer.ofFile (← get) path with
    | .ok layer => return layer.excludeRules.getD []
    | .error e => throw e
  setRules scope rules := do writeRules (← files.path scope) rules

end SettingsFiles
end SqlLint
