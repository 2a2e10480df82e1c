/-! # Settings and their layers

A layer sets some of the settings. Layers are stacked: each key has the value of the last layer
that sets it, and only the lists of excluded rules are joined. -/
namespace SqlLint

/-- When documents are linted without a command. -/
inductive Trigger | onType | onSave | off deriving DecidableEq, Repr

structure Layer where
  executablePath : Option String := none
  config : Option String := none
  dialect : Option String := none
  excludeRules : Option (List String) := none
  rules : Option (List String) := none
  ignoreParsing : Option Bool := none
  ignoreTemplating : Option Bool := none
  workingDirectory : Option String := none
  run : Option Trigger := none
  timeout : Option Nat := none
  format : Option Bool := none
  osmosis : Option Bool := none
  deriving DecidableEq, Repr

structure Settings where
  executablePath : String := "sqlfluff"
  config : Option String := none
  dialect : Option String := none
  excludeRules : List String := []
  rules : List String := []
  ignoreParsing : Bool := false
  ignoreTemplating : Bool := false
  workingDirectory : Option String := none
  run : Trigger := .onType
  timeout : Nat := 30
  format : Bool := true
  osmosis : Bool := false
  deriving DecidableEq, Repr

namespace Trigger

def name : Trigger → String
  | .onType => "onType"
  | .onSave => "onSave"
  | .off => "off"

def names : List String := [onType, onSave, off].map name

def ofName? : String → Option Trigger
  | "onType" => some .onType
  | "onSave" => some .onSave
  | "off" => some .off
  | _ => none

@[simp] theorem ofName?_name (t : Trigger) : ofName? t.name = some t := by cases t <;> rfl

end Trigger

namespace Settings

/-- Appends the rules that a list does not hold yet. -/
def joinRules (rules more : List String) : List String :=
  more.foldl (fun rules rule => if rule ∈ rules then rules else rules ++ [rule]) rules

/-- Lays a layer over the settings. -/
def apply (s : Settings) (layer : Layer) : Settings where
  executablePath := layer.executablePath.getD s.executablePath
  config := layer.config <|> s.config
  dialect := layer.dialect <|> s.dialect
  excludeRules := joinRules s.excludeRules (layer.excludeRules.getD [])
  rules := layer.rules.getD s.rules
  ignoreParsing := layer.ignoreParsing.getD s.ignoreParsing
  ignoreTemplating := layer.ignoreTemplating.getD s.ignoreTemplating
  workingDirectory := layer.workingDirectory <|> s.workingDirectory
  run := layer.run.getD s.run
  timeout := layer.timeout.getD s.timeout
  format := layer.format.getD s.format
  osmosis := layer.osmosis.getD s.osmosis

/-- The settings of layers, the least specific one first. -/
def resolve (layers : List Layer) : Settings := layers.foldl apply {}

theorem resolve_append (layers more : List Layer) :
    resolve (layers ++ more) = more.foldl apply (resolve layers) := List.foldl_append

@[simp] theorem apply_empty (s : Settings) : s.apply {} = s := rfl

end Settings
end SqlLint
